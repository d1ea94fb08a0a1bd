import Mathlib.Tactic.Common
import Lexing.Tokenizer

/-!
# The order in which lexemes are taken

Of two lexemes that wait, one is always to be taken before the other, and the
order is consistent. So the lexeme that is taken first is to be taken before
every other one (`takenBefore_of_first?`).
-/

namespace Lexing

namespace Tokenizer

variable {σ : Type} {a b c : Ready}

/-- The order of ranks: a token with a lower rank is preferred, and no token
at all is last. -/
def RankLe : Option Nat → Option Nat → Prop
  | some i, some j => i ≤ j
  | some _, none => True
  | none, some _ => False
  | none, none => True

theorem RankLe.trans {i j k : Option Nat} (hij : RankLe i j) (hjk : RankLe j k) : RankLe i k := by
  cases i with
  | none =>
    cases j with
    | none => exact hjk
    | some j => exact hij.elim
  | some i =>
    cases k with
    | none => trivial
    | some k =>
      cases j with
      | none => exact hjk.elim
      | some j => exact Nat.le_trans hij hjk

theorem RankLe.total (i j : Option Nat) : RankLe i j ∨ RankLe j i := by
  cases i with
  | none => cases j <;> [exact .inl trivial; exact .inr trivial]
  | some i =>
    cases j with
    | none => exact .inl trivial
    | some j => exact Nat.le_total i j

/-- The longer lexeme comes first, then the one that starts earlier, then the
one whose token is preferred. -/
theorem takenBefore_iff : takenBefore a b = true ↔
    b.lexeme.size < a.lexeme.size ∨ a.lexeme.size = b.lexeme.size ∧
      (a.lexeme.start < b.lexeme.start ∨ a.lexeme.start = b.lexeme.start ∧
        RankLe a.rank b.rank) := by
  rw [takenBefore]
  by_cases hsize : a.lexeme.size = b.lexeme.size
  · rw [if_neg (not_not.2 hsize)]
    by_cases hstart : a.lexeme.start = b.lexeme.start
    · rw [if_neg (not_not.2 hstart)]
      cases a.rank <;> cases b.rank <;> simp [RankLe, hsize, hstart]
    · rw [if_pos hstart, decide_eq_true_iff]
      omega
  · rw [if_pos hsize, decide_eq_true_iff]
    omega

theorem takenBefore_trans (a b c : Ready) (hab : takenBefore a b = true)
    (hbc : takenBefore b c = true) : takenBefore a c = true := by
  rw [takenBefore_iff] at hab hbc ⊢
  obtain hab | ⟨hab, hab' | ⟨hab', hrank⟩⟩ := hab
  · omega
  · omega
  · obtain hbc | ⟨hbc, hbc' | ⟨hbc', hrank'⟩⟩ := hbc
    · omega
    · omega
    · exact .inr ⟨by omega, .inr ⟨by omega, hrank.trans hrank'⟩⟩

theorem takenBefore_total (a b : Ready) : (takenBefore a b || takenBefore b a) = true := by
  rw [Bool.or_eq_true, takenBefore_iff, takenBefore_iff]
  obtain hsize | hsize | hsize := Nat.lt_trichotomy a.lexeme.size b.lexeme.size
  · exact .inr (.inl hsize)
  · obtain hstart | hstart | hstart := Nat.lt_trichotomy a.lexeme.start b.lexeme.start
    · exact .inl (.inr ⟨hsize, .inl hstart⟩)
    · exact (RankLe.total a.rank b.rank).imp (fun h => .inr ⟨hsize, .inr ⟨hstart, h⟩⟩)
        fun h => .inr ⟨hsize.symm, .inr ⟨hstart.symm, h⟩⟩
    · exact .inr (.inr ⟨hsize.symm, .inl hstart⟩)
  · exact .inl (.inl hsize)

/-- The lexeme that is taken first. -/
def first? (t : Tokenizer σ) : Option Ready := (t.results.mergeSort takenBefore).head?

variable {t : Tokenizer σ} {r : Ready}

theorem mem_of_first? (h : t.first? = some r) : r ∈ t.results :=
  List.mem_mergeSort.1 (List.mem_of_mem_head? h)

theorem first?_eq_none_iff : t.first? = none ↔ t.results = [] := by
  rw [first?, List.head?_eq_none_iff, ← List.length_eq_zero_iff, List.length_mergeSort,
    List.length_eq_zero_iff]

theorem mem_take {l : Lexeme} : l ∈ t.take.1 ↔ ∃ r ∈ t.results, r.lexeme = l := by
  simp only [take, List.mem_map, List.mem_mergeSort]

theorem take_eq_nil_iff : t.take.1 = [] ↔ t.results = [] := by
  rw [take, List.map_eq_nil_iff, ← List.head?_eq_none_iff]
  exact first?_eq_none_iff

theorem first?_of_singleton (h : t.results = [r]) : t.first? = some r := by
  rw [first?, h, List.mergeSort_singleton]
  rfl

/-- **The first lexeme is to be taken before every other one.** -/
theorem takenBefore_of_first? (h : t.first? = some r) {q : Ready} (hq : q ∈ t.results) :
    takenBefore r q = true := by
  have hsorted := List.pairwise_mergeSort takenBefore_trans takenBefore_total t.results
  obtain ⟨rest, hrest⟩ := List.head?_eq_some_iff.1 h
  rw [hrest] at hsorted
  have hq : q ∈ t.results.mergeSort takenBefore := List.mem_mergeSort.2 hq
  rw [hrest] at hq
  obtain rfl | hq := List.mem_cons.1 hq
  · simpa using takenBefore_total q q
  · exact List.rel_of_pairwise_cons hsorted hq

end Tokenizer

end Lexing
