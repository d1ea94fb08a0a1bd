import Mathlib.Data.List.Basic
import Mathlib.Tactic.Common
import Lexing.Tokenizer.Candidate

/-!
# The offsets of a signature

A signature is read at places: its characters from a place on, and the offset
at a place, where the end of what has been read stands behind the last
character. In range every such reading succeeds, and since the offsets
increase, a later place stands at a greater offset.
-/

namespace Lexing

namespace Signature

variable {s : Signature} {key n i j floor stop : Nat}

/-- Where the character at a place stands; `stop` stands behind the last. -/
def boundary (s : Signature) (stop i : Nat) : Nat := (s[i]?.map Prod.snd).getD stop

/-- The offsets increase, from one bound on and below another. -/
structure Within (s : Signature) (floor stop : Nat) : Prop where
  increasing : s.Pairwise (·.2 < ·.2)
  floor_le : ∀ p ∈ s, floor ≤ p.2
  lt_stop : ∀ p ∈ s, p.2 < stop

@[simp] theorem length_text (s : Signature) : s.text.length = s.length := List.length_map _

theorem text_append (s u : Signature) : text (s ++ u) = s.text ++ u.text := List.map_append

theorem textFrom_eq (h : key ≤ s.length) : s.textFrom key = .ok (s.text.drop key) := by
  rw [textFrom, if_pos h, text, List.map_drop]
  rfl

theorem slice_eq (h : key + n ≤ s.length) : s.slice key n = .ok ((s.text.drop key).take n) := by
  rw [slice, if_pos h, text, List.map_take, List.map_drop]
  rfl

theorem offsetAt_some (s : Signature) (stop i : Nat) :
    s.offsetAt (some stop) i = .ok (s.boundary stop i) := by
  unfold offsetAt boundary
  cases s[i]? <;> rfl

theorem boundary_of_length_le (stop : Nat) (h : s.length ≤ i) : s.boundary stop i = stop := by
  rw [boundary, List.getElem?_eq_none h]
  rfl

theorem boundary_append_left (s u : Signature) (stop : Nat) (h : i < s.length) :
    boundary (s ++ u) stop i = s.boundary stop i := by
  rw [boundary, boundary, List.getElem?_append_left h]

/-- A character that is read at `stop` ends what stood before it. -/
theorem boundary_snoc (s : Signature) (c : Char) (here stop : Nat) (h : i ≤ s.length) :
    boundary (s ++ [(c, here)]) stop i = s.boundary here i := by
  obtain h | rfl := Nat.lt_or_eq_of_le h
  · rw [boundary_append_left s _ stop h, boundary, boundary, List.getElem?_eq_getElem h]
    rfl
  · rw [boundary_of_length_le here (Nat.le_refl _), boundary, List.getElem?_concat_length]
    rfl

theorem offsetAt_none (stop : Nat) (h : i < s.length) :
    s.offsetAt none i = .ok (s.boundary stop i) := by
  rw [offsetAt, boundary, List.getElem?_eq_getElem h]
  rfl

theorem offsetAt_none_snoc (s : Signature) (c : Char) (here : Nat) (h : i ≤ s.length) :
    offsetAt (s ++ [(c, here)]) none i = .ok (s.boundary here i) := by
  rw [← boundary_snoc s c here here h]
  refine offsetAt_none here ?_
  rw [List.length_append]
  exact Nat.lt_succ_of_le h

/-! ## Offsets in order -/

theorem Within.mono (h : s.Within floor stop) {stop' : Nat} (hle : stop ≤ stop') :
    s.Within floor stop' :=
  ⟨h.increasing, h.floor_le, fun p hp => Nat.lt_of_lt_of_le (h.lt_stop p hp) hle⟩

theorem within_nil (floor stop : Nat) : Within [] floor stop :=
  ⟨List.Pairwise.nil, by simp, by simp⟩

/-- One more character, behind the others. -/
theorem Within.snoc (h : s.Within floor stop) (c : Char) (hle : floor ≤ stop) :
    Within (s ++ [(c, stop)]) floor (stop + 1) := by
  refine ⟨List.pairwise_append.2 ⟨h.increasing, List.pairwise_singleton _ _, ?_⟩, ?_, ?_⟩
  · intro p hp q hq
    rw [List.mem_singleton.1 hq]
    exact h.lt_stop p hp
  · intro p hp
    obtain hp | hp := List.mem_append.1 hp
    · exact h.floor_le p hp
    · rw [List.mem_singleton.1 hp]
      exact hle
  · intro p hp
    obtain hp | hp := List.mem_append.1 hp
    · exact Nat.lt_succ_of_lt (h.lt_stop p hp)
    · rw [List.mem_singleton.1 hp]
      exact Nat.lt_succ_self _

/-- Characters that stand behind others. -/
theorem Within.append {u : Signature} {place : Nat} (hs : s.Within floor place)
    (hu : u.Within place stop) (hfloor : floor ≤ place) (hstop : ∀ p ∈ s, p.2 < stop) :
    Within (s ++ u) floor stop := by
  refine ⟨List.pairwise_append.2 ⟨hs.increasing, hu.increasing, fun p hp q hq => ?_⟩, ?_, ?_⟩
  · exact Nat.lt_of_lt_of_le (hs.lt_stop p hp) (hu.floor_le q hq)
  · exact List.forall_mem_append.2
      ⟨hs.floor_le, fun q hq => Nat.le_trans hfloor (hu.floor_le q hq)⟩
  · exact List.forall_mem_append.2 ⟨hstop, hu.lt_stop⟩

theorem Within.floor_le_boundary (h : s.Within floor stop) (hi : i < s.length) :
    floor ≤ s.boundary stop i := by
  rw [boundary, List.getElem?_eq_getElem hi]
  exact h.floor_le _ (List.getElem_mem hi)

/-- A character stands before the end. -/
theorem Within.boundary_lt_stop (h : s.Within floor stop) (hi : i < s.length) :
    s.boundary stop i < stop := by
  rw [boundary, List.getElem?_eq_getElem hi]
  exact h.lt_stop _ (List.getElem_mem hi)

theorem Within.boundary_le (h : s.Within floor stop) (i : Nat) : s.boundary stop i ≤ stop := by
  obtain hi | hi := Nat.lt_or_ge i s.length
  · exact Nat.le_of_lt (h.boundary_lt_stop hi)
  · exact Nat.le_of_eq (boundary_of_length_le stop hi)

/-- A later place stands at a greater offset. -/
theorem Within.boundary_lt (h : s.Within floor stop) (hi : i < s.length) (hij : i < j) :
    s.boundary stop i < s.boundary stop j := by
  rw [boundary, List.getElem?_eq_getElem hi]
  obtain hj | hj := Nat.lt_or_ge j s.length
  · rw [boundary, List.getElem?_eq_getElem hj]
    exact List.pairwise_iff_getElem.1 h.increasing i j hi hj hij
  · rw [boundary_of_length_le stop hj]
    exact h.lt_stop _ (List.getElem_mem hi)

end Signature

end Lexing
