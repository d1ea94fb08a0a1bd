import Mathlib.Data.List.GetD
import Lexing.Proofs.Token.Generated
import Lexing.Token.Table

/-!
# Tables whose targets share characters

A table may let one character into several targets that are open together. The
token then takes the preferred one, while the generator draws any of them, and
the two may come to different states over the same characters. So a table can
generate, as a recognized lexeme, a text that its own token refuses
(`not_forall_machine_reads_back`).

The places where that can happen are named: a text is ambiguous if behind some
of its characters, which the token accepts, the next one enters two open
targets, to different states (`Machine.Ambiguous`). A table generates every
lexeme as its token accepts it, unless the text is ambiguous
(`machine_reads_back_or_ambiguous`). Where targets that may be open together
share no characters, as in a plain table with disjoint rows, no text is.
-/

namespace Lexing

variable {ι σ : Type}

namespace Machine

variable {m : Machine ι σ} {id : Nat} {reserved : Option Reserved} {text : List Char}

/-- A character that enters two open targets, to different states. -/
def Splits (m : Machine ι σ) (s : σ) (text : List Char) (c : Char) : Prop :=
  ∃ target ∈ m.openTargets s, ∃ other ∈ m.openTargets s,
    m.canEnter target s text c = true ∧ m.canEnter other s text c = true
      ∧ m.enter target s text c ≠ m.enter other s text c

/-- **An ambiguous text**: one of its characters splits the table at the state
to which the characters before it lead. -/
def Ambiguous (m : Machine ι σ) (id : Nat) (reserved : Option Reserved) (text : List Char) :
    Prop :=
  ∃ front c back s, text = front ++ c :: back
    ∧ (m.toGenerator id).run (m.fresh reserved) [] front = some s ∧ m.Splits s front c

/-- An ambiguous text stays ambiguous as it grows. -/
theorem Ambiguous.append (h : m.Ambiguous id reserved text) (rest : List Char) :
    m.Ambiguous id reserved (text ++ rest) := by
  obtain ⟨front, c, back, s, rfl, hrun, hsplits⟩ := h
  exact ⟨front, c, back ++ rest, s, by simp, hrun, hsplits⟩

/-- A target that the character can enter is the one that the token takes, or
the character splits the table. -/
theorem advance_or_splits {s : σ} {c : Char} {target : ι} (htarget : target ∈ m.openTargets s)
    (henter : m.canEnter target s text c = true) :
    m.advance s text c = some (m.enter target s text c) ∨ m.Splits s text c := by
  unfold advance
  cases hfind : (m.openTargets s).find? fun target => m.canEnter target s text c with
  | none => exact absurd henter (List.find?_eq_none.mp hfind target htarget)
  | some first =>
    by_cases heq : m.enter first s text c = m.enter target s text c
    · exact .inl (congrArg some heq)
    · exact .inr ⟨first, List.mem_of_find?_eq_some hfind, target, htarget,
        List.find?_some (p := fun target => m.canEnter target s text c) hfind, henter, heq⟩

/-- **A proposal keeps a draft accepted**, or makes it ambiguous. -/
theorem accepted_or_ambiguous_of_propose
    (hascii : ∀ target s, IsAscii (m.entryChars target s)) {s s' : σ} {c : Char} {draws : Draws}
    (hd : IsAscii text ∧
      ((m.toGenerator id).run (m.fresh reserved) [] text = some s
        ∨ m.Ambiguous id reserved text))
    (hpropose : (m.propose s text draws).1 = some (c, s')) :
    IsAscii (text ++ [c]) ∧
      ((m.toGenerator id).run (m.fresh reserved) [] (text ++ [c]) = some s'
        ∨ m.Ambiguous id reserved (text ++ [c])) := by
  obtain ⟨target, htarget, henter, rfl, hmem⟩ := exists_of_propose hpropose
  refine ⟨isAscii_append.mpr ⟨hd.1, isAscii_cons.mpr ⟨hascii target s c hmem, isAscii_nil⟩⟩, ?_⟩
  rcases hd.2 with hrun | hambiguous
  · rcases advance_or_splits htarget henter with hadvance | hsplits
    · refine .inl ?_
      rw [Token.run_snoc, hrun]
      exact hadvance
    · exact .inr ⟨text, c, [], s, rfl, hrun, hsplits⟩
  · exact .inr (hambiguous.append [c])

theorem eq_toGenerator_of_ok [DecidableEq ι] {stateName : ι → String} {g : Generator σ}
    (h : m.toGenerator? stateName id = .ok g) : g = m.toGenerator id := by
  unfold toGenerator? at h
  split at h
  · exact nomatch h
  · exact (Except.ok.inj h).symm

end Machine

/-! ## Plain tables -/

namespace Table

variable {rows : List TableRow}

/-- The row of a state is one of the table, or that of a dead end. -/
theorem row_mem_or_eq (rows : List TableRow) (n : Nat) : row rows n ∈ rows ∨ row rows n = {} := by
  unfold row
  by_cases h : n < rows.length
  · rw [List.getD_eq_getElem _ _ h]
    exact .inl (List.getElem_mem h)
  · exact .inr (List.getD_eq_default _ _ (Nat.le_of_not_lt h))

/-- The characters of a plain table are those of its rows. -/
theorem isAscii_entryChars (h : ∀ r ∈ rows, IsAscii r.chars) (name : String) (target : Nat)
    (s : TableProgress) : IsAscii ((machine name rows).entryChars target s) := by
  show IsAscii (row rows target).chars
  rcases row_mem_or_eq rows target with hmem | heq
  · exact h _ hmem
  · rw [heq]
    exact isAscii_nil

/-- **Disjoint rows**: two targets of a row share no characters. -/
def Disjoint (rows : List TableRow) : Prop :=
  ∀ r ∈ rows, ∀ target ∈ r.targets, ∀ other ∈ r.targets, target ≠ other →
    ∀ c ∈ (row rows target).chars, c ∉ (row rows other).chars

instance : DecidablePred Disjoint := fun rows =>
  decidable_of_iff
    ((rows.all fun r => r.targets.all fun target => r.targets.all fun other =>
      target == other || (row rows target).chars.all (· ∉ (row rows other).chars)) = true) <| by
    simp only [Disjoint, List.all_eq_true, Bool.or_eq_true, beq_iff_eq, decide_eq_true_eq,
      or_iff_not_imp_left, ne_eq]

/-- **With disjoint rows no text is ambiguous.** -/
theorem not_ambiguous_of_disjoint (h : Disjoint rows) (name : String) (id : Nat)
    (reserved : Option Reserved) (text : List Char) :
    ¬ (machine name rows).Ambiguous id reserved text := by
  rintro ⟨front, c, back, s, -, -, target, htarget, other, hother, henter, henter', hne⟩
  have hmem : target ∈ (row rows s.state).targets := (List.mem_filter.mp htarget).1
  have hmem' : other ∈ (row rows s.state).targets := (List.mem_filter.mp hother).1
  have hc : c ∈ (row rows target).chars := of_decide_eq_true henter
  have hc' : c ∈ (row rows other).chars := of_decide_eq_true henter'
  rcases row_mem_or_eq rows s.state with hrow | hrow
  · refine h _ hrow target hmem other hmem' (fun heq => hne ?_) c hc hc'
    rw [heq]
  · rw [hrow] at hmem
    exact absurd hmem List.not_mem_nil

end Table

/-! ## Generating -/

/-- **A table generates what its token accepts, unless the text is ambiguous.**
For every table whose edges stay inside it, generating comes to a lexeme, and if
that one is recognized and not ambiguous, extraction from its text gives it
again, from the first character to the last and with the same value. -/
theorem machine_reads_back_or_ambiguous [DecidableEq ι] {m : Machine ι σ}
    {stateName : ι → String} {id : Nat} {g : Generator σ}
    (hg : m.toGenerator? stateName id = .ok g)
    (hascii : ∀ target s, IsAscii (m.entryChars target s)) (reserved : Option Reserved)
    (low high : Nat) (draws : Draws) :
    ∃ l rest, generate g reserved low high draws = .ok (l, rest)
      ∧ (l.isRecognized = true → ¬ m.Ambiguous id reserved l.text →
          extract g.toToken l.text reserved = .ok l
            ∧ l.start = 0 ∧ l.stop = Text.byteLength l.text) := by
  obtain rfl := Machine.eq_toGenerator_of_ok hg
  obtain ⟨short, incomplete, draws', d, hd, hgenerate⟩ :=
    exists_generate_eq (m.toGenerator id) reserved low high draws
  -- both times the draft is extended it stays accepted, or is ambiguous from then on
  have hkept : IsAscii d.text ∧
      ((m.toGenerator id).run (m.fresh reserved) [] d.text = some d.state
        ∨ m.Ambiguous id reserved d.text) := by
    rw [hd]
    refine Draft.extend_induction (g := m.toGenerator id)
      (P := fun s text => IsAscii text ∧
        ((m.toGenerator id).run (m.fresh reserved) [] text = some s
          ∨ m.Ambiguous id reserved text))
      (fun s text draws c s' => Machine.accepted_or_ambiguous_of_propose hascii) _ _ ?_
    refine Draft.extend_induction (g := m.toGenerator id)
      (fun s text draws c s' => Machine.accepted_or_ambiguous_of_propose hascii) _ _ ?_
    exact ⟨isAscii_nil, .inl rfl⟩
  refine ⟨_, _, hgenerate, ?_⟩
  unfold Draft.lexeme
  split_ifs with hvalid
  · intro _ hclear
    refine ⟨?_, rfl, rfl⟩
    have hrun := hkept.2.resolve_right hclear
    rw [extract_eq_of_run (m.toGenerator id).toToken .utf8 hkept.1 hrun hvalid,
      byteLength_of_ascii hkept.1]
  · exact nofun

/-- A sign that may be left out and binary digits behind it, of which the
generator draws the sign and two zeros. -/
theorem machine_reads_back_binary :
    let m := Table.machine "binary"
      [{ targets := [1, 2] }, { targets := [2], chars := ['-'] },
        { targets := [2], chars := ['0', '1'], valid := true }]
    m.toGenerator? Table.stateName 0 = .ok (m.toGenerator 0)
      ∧ (∀ target s, IsAscii (m.entryChars target s))
      ∧ extract (m.toGenerator 0).toToken ['-', '0', '0']
        = .ok ⟨0, 3, 1, 0, ['-', '0', '0'], some (.u64 12), some ⟨0, "binary"⟩⟩ := by
  intro m
  have hascii : ∀ target s, IsAscii (m.entryChars target s) :=
    Table.isAscii_entryChars (by decide) "binary"
  refine ⟨rfl, hascii, ?_⟩
  obtain ⟨l, rest, hgenerate, hback⟩ :=
    machine_reads_back_or_ambiguous
      (show m.toGenerator? Table.stateName 0 = .ok (m.toGenerator 0) from rfl) hascii none 3 3
      ⟨fun _ => 0, 0⟩
  have hdrawn : generate (m.toGenerator 0) none 3 3 ⟨fun _ => 0, 0⟩
      = .ok (⟨0, 3, 1, 0, ['-', '0', '0'], some (.u64 12), some ⟨0, "binary"⟩⟩,
        ⟨fun _ => 0, 6⟩) := by
    unfold m
    rfl
  obtain ⟨rfl, -⟩ := Prod.mk.inj (Except.ok.inj (hgenerate.symm.trans hdrawn))
  exact (hback rfl (Table.not_ambiguous_of_disjoint (by decide) _ _ _ _)).1

/-- **A table may generate a text that its token refuses.** Both states behind
the first let an `a` in, and only the second of them is valid: drawing that one
gives a recognized lexeme, while the token takes the first. -/
theorem not_forall_machine_reads_back :
    ¬ ∀ {ι σ : Type} [DecidableEq ι] (m : Machine ι σ) (stateName : ι → String) (id : Nat)
        (g : Generator σ), m.toGenerator? stateName id = .ok g →
        (∀ target s, IsAscii (m.entryChars target s)) →
        (∀ target s text c, m.canEnter target s text c = true ↔ c ∈ m.entryChars target s) →
        ∀ low high draws l rest, generate g none low high draws = .ok (l, rest) →
          l.isRecognized = true →
          ∃ l', extract g.toToken l.text = .ok l' ∧ l'.isRecognized = true
            ∧ l'.text = l.text ∧ l'.value = l.value := by
  intro h
  let m := Table.machine "table"
    [{ targets := [1, 2] }, { chars := ['a'] }, { chars := ['a'], valid := true }]
  let draws : Draws := ⟨fun n => if n = 0 then 0x80000000 else 0, 0⟩
  have hgenerate : generate (m.toGenerator 0) none 1 1 draws
      = .ok (⟨0, 1, 1, 0, ['a'], some (.u64 1), some ⟨0, "table"⟩⟩, { draws with used := 2 }) := by
    unfold m draws
    rfl
  have hrefused : extract (m.toGenerator 0).toToken ['a']
      = .ok ⟨0, 1, 1, 0, ['a'], none, none⟩ := by
    unfold m
    rfl
  obtain ⟨l', hextract, hrecognized, -⟩ :=
    h m Table.stateName 0 (m.toGenerator 0) rfl (Table.isAscii_entryChars (by decide) "table")
      (fun _ _ _ _ => decide_eq_true_iff) 1 1 draws _ _ hgenerate rfl
  obtain rfl := Except.ok.inj (hextract.symm.trans hrefused)
  exact Bool.false_ne_true hrecognized

end Lexing
