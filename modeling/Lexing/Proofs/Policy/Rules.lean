import Mathlib.Data.Char
import Mathlib.Data.List.Induction
import Mathlib.Tactic.Common
import Lexing.Tokenizer.Config

/-!
# The rule that counts

A setup lists rules for categories, which are applied one after the other to a
table that passes every character. A rule replaces the policy of each character
that its category covers, and leaves every other one as it was
(`get_setCategory`). Categories overlap, so a later rule may take back what an
earlier one has said about some characters and not about others; in the end
each character has the flags of the last rule that covers it, and no flags if
there is none (`policyTable_get_eq_last`).
-/

namespace Lexing

namespace Category

/-- **What a rule for a category covers** of the ASCII characters. What is not
ASCII arrives as the substitute, so `notAscii` covers that one, as `substitute`
does; `control` leaves it out. The last three cover what their parts cover. -/
def Covers (k : Category) (c : Char) : Prop :=
  match k with
  | notAscii | substitute => c = Lexing.substitute
  | whitespace => c = ' ' ∨ c = '\t' ∨ c = '\x0b'
  | newline => c = '\n' ∨ c = '\x0c' ∨ c = '\r'
  | control =>
    (c < ' ' ∨ c = '\x7f') ∧ c ∉ ['\t', '\n', '\x0b', '\x0c', '\r', Lexing.substitute]
  | lowercaseLetter => c.isLower
  | uppercaseLetter => c.isUpper
  | digit => c.isDigit
  | symbol => '!' ≤ c ∧ c ≤ '~' ∧ ¬(c.isLower ∨ c.isUpper ∨ c.isDigit ∨ c = '_')
  | letter => c.isLower ∨ c.isUpper
  | alphanumeric => c.isLower ∨ c.isUpper ∨ c.isDigit
  | word => c.isLower ∨ c.isUpper ∨ c.isDigit ∨ c = '_'

instance (k : Category) (c : Char) : Decidable (k.Covers c) := by
  unfold Covers
  cases k <;> infer_instance

theorem mem_asciiChars {c : Char} : c ∈ asciiChars ↔ c.toNat < 0x80 := by
  rw [asciiChars, List.mem_map]
  constructor
  · rintro ⟨n, hn, rfl⟩
    have key : ∀ n < 128, (Char.ofNat n).toNat < 0x80 := by decide
    exact key n (List.mem_range.1 hn)
  · intro hc
    exact ⟨c.toNat, List.mem_range.2 hc, Char.ofNat_toNat c⟩

theorem toNat_lt_of_mem_members {k : Category} {c : Char} (h : c ∈ k.members) : c.toNat < 0x80 :=
  mem_asciiChars.1 (List.mem_filter.1 h).1

theorem Covers.toNat_lt {k : Category} {c : Char} (h : k.Covers c) : c.toNat < 0x80 := by
  have hbelow {d : Char} (hle : c ≤ d) (hd : d.toNat < 0x80) : c.toNat < 0x80 :=
    Nat.lt_of_le_of_lt (UInt32.le_iff_toNat_le.1 hle) hd
  have hlower (h : c.isLower = true) : c.toNat < 0x80 :=
    hbelow (d := 'z') (of_decide_eq_true (Bool.and_eq_true_iff.1 h).2) (by decide)
  have hupper (h : c.isUpper = true) : c.toNat < 0x80 :=
    hbelow (d := 'Z') (of_decide_eq_true h).2 (by decide)
  have hdigit (h : c.isDigit = true) : c.toNat < 0x80 :=
    hbelow (d := '9') (of_decide_eq_true (Bool.and_eq_true_iff.1 h).2) (by decide)
  cases k with
  | notAscii | substitute => exact h ▸ by decide
  | whitespace | newline => obtain rfl | rfl | rfl := h <;> decide
  | control =>
    obtain h | rfl := h.1
    · exact Nat.lt_trans (UInt32.lt_iff_toNat_lt.1 h) (by decide)
    · decide
  | lowercaseLetter => exact hlower h
  | uppercaseLetter => exact hupper h
  | digit => exact hdigit h
  | symbol => exact hbelow h.2.1 (by decide)
  | letter => exact h.elim hlower hupper
  | alphanumeric => exact h.elim hlower fun h => h.elim hupper hdigit
  | word =>
    obtain h | h | h | rfl := h
    · exact hlower h
    · exact hupper h
    · exact hdigit h
    · decide

/-- **A category covers its members**, and `notAscii`, which has none among the
ASCII characters, the substitute. -/
theorem covers_iff (k : Category) (c : Char) :
    k.Covers c ↔ c ∈ k.members ∨ k = notAscii ∧ c = Lexing.substitute := by
  have key : ∀ n < 128, ∀ k ∈ all, k.Covers (Char.ofNat n) ↔
      k.contains (Char.ofNat n) ∨ k = notAscii ∧ Char.ofNat n = Lexing.substitute := by
    decide +kernel
  have hall : k ∈ all := by cases k <;> decide
  by_cases hc : c.toNat < 0x80
  · have hcovers := key c.toNat hc k hall
    rw [Char.ofNat_toNat] at hcovers
    rw [hcovers, members, List.mem_filter, mem_asciiChars, and_iff_right hc]
  · refine iff_of_false (fun h => hc h.toNat_lt) ?_
    rintro (h | ⟨-, rfl⟩)
    · exact hc (toNat_lt_of_mem_members h)
    · exact hc (by decide)

end Category

namespace Policy

variable (flag : PolicyFlag)

theorem has_union (p q : Policy) : (p.union q).has flag = (p.has flag || q.has flag) := by
  cases flag <;> rfl

theorem has_single (other : PolicyFlag) : (single other).has flag = (flag == other) := by
  cases flag <;> cases other <;> rfl

/-- **A list of flags stands for their union.** -/
theorem has_ofFlags (flags : List PolicyFlag) :
    (ofFlags flags).has flag = decide (flag ∈ flags) := by
  have hfold (p : Policy) : (flags.foldl (fun p flag => p.union (single flag)) p).has flag
      = (p.has flag || decide (flag ∈ flags)) := by
    induction flags generalizing p with
    | nil => simp
    | cons other flags ih =>
      rw [List.foldl_cons, ih, has_union, has_single, Bool.or_assoc]
      simp [beq_eq_decide]
  have hpass : pass.has flag = false := by cases flag <;> rfl
  rw [ofFlags, hfold, hpass, Bool.false_or]

end Policy

namespace PolicyTable

variable (t : PolicyTable) (p : Policy) (c : Char)

/-- Characters share a policy exactly if tokens cannot tell them apart. -/
theorem get_set_toAscii (d : Char) :
    (t.set d p).get c = if toAscii d = toAscii c then p else t.get c := by
  have hcode (c : Char) : (index c).val = (toAscii c).toNat := by
    unfold index toAscii
    split <;> rfl
  have hindex : index d = index c ↔ toAscii d = toAscii c := by
    rw [Fin.ext_iff, hcode, hcode]
    exact ⟨fun h => Char.toNat_inj.1 h, fun h => congrArg Char.toNat h⟩
  rw [get_set]
  exact if_congr hindex rfl rfl

/-- Replacing the policies of some characters changes those and no others. -/
theorem get_foldl_set {members : List Char} (hmembers : ∀ d ∈ members, d.toNat < 0x80) :
    (members.foldl (fun t d => t.set d p) t).get c
      = if toAscii c ∈ members then p else t.get c := by
  induction members generalizing t with
  | nil => rfl
  | cons d members ih =>
    obtain ⟨hd, hrest⟩ := List.forall_mem_cons.1 hmembers
    rw [List.foldl_cons, ih _ hrest, get_set_toAscii, toAscii_of_lt hd]
    simp only [List.mem_cons, eq_comm (a := d)]
    by_cases hfirst : toAscii c = d
    · simp [hfirst]
    · simp [hfirst]

/-- **A rule replaces the policies of what its category covers**, and of
nothing else. -/
theorem get_setCategory (k : Category) :
    (t.setCategory k p).get c = if k.Covers (toAscii c) then p else t.get c := by
  have hmembers (hk : k ≠ .notAscii) :
      (k.members.foldl (fun t d => t.set d p) t).get c
        = if k.Covers (toAscii c) then p else t.get c := by
    rw [get_foldl_set t p c fun d hd => Category.toNat_lt_of_mem_members hd]
    simp only [Category.covers_iff, hk, false_and, or_false]
  cases k with
  | notAscii =>
    have hsubstitute : toAscii substitute = substitute := rfl
    show (t.set substitute p).get c = if toAscii c = substitute then p else t.get c
    rw [get_set_toAscii, hsubstitute]
    simp only [eq_comm (a := substitute)]
  | _ => exact hmembers (by decide)

end PolicyTable

namespace TokenizerConfig

/-- **The last covering rule wins**: whatever the rules of a setup are, a
character has the flags of the last one whose category covers its ASCII image,
and no flags if none does. A category covers its members, and `notAscii` the
character that `substitute` has for its only member. -/
theorem policyTable_get_eq_last (config : TokenizerConfig) (c : Char) :
    config.policyTable.get c
        = ((config.policies.filter fun rule => rule.category.Covers (toAscii c)).getLast?.map
            fun rule => Policy.ofFlags rule.flags).getD .pass ∧
      (∀ flags flag, (Policy.ofFlags flags).has flag = decide (flag ∈ flags)) ∧
      ∀ (k : Category) (d : Char), k.Covers d ↔ d ∈ k.members ∨ k = .notAscii ∧ d = substitute := by
  refine ⟨?_, fun flags flag => Policy.has_ofFlags flag flags, Category.covers_iff⟩
  rw [policyTable]
  -- rule by rule from the front; what the table holds so far is the fallback
  induction config.policies using List.reverseRecOn with
  | nil => simp
  | append_singleton rules rule ih =>
    rw [List.foldl_append, List.foldl_cons, List.foldl_nil, PolicyTable.get_setCategory,
      List.filter_append]
    by_cases hcovers : rule.category.Covers (toAscii c)
    · simp [hcovers]
    · simpa [hcovers] using ih

/-- A rule for a smaller category takes back a part of what an earlier one
says. -/
example : let config : TokenizerConfig :=
      { policies := [⟨.word, [.trim]⟩, ⟨.digit, [.ignore, .terminate]⟩] }
    config.policyTable.get '7' = { ignore := true, terminate := true } ∧
      config.policyTable.get 'x' = { trim := true } := by decide

end TokenizerConfig

end Lexing
