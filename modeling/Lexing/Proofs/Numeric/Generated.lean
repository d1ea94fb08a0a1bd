import Lexing.CommandLine.Run
import Lexing.Proofs.Numeric.ReadBack
import Lexing.Proofs.Token.Generated

/-!
# Generated literals read back

The generator draws an open target of the table first and then one of its
characters; the recognizer is given the character and takes the first open
target that it can enter. Both come to the same point, since no two targets
that are open together share a character (`advance_eq_some_iff`). So numeric
literals are generated faithfully, and checking them finds fault with none but
those that the generator itself left incomplete (`checkLiterals_generated`).
-/

namespace Lexing.Numeric

variable {config : NumericConfig}

/-- **Numeric literals are generated faithfully.** -/
theorem faithful_numeric (hconfig : config.validate = .ok ()) (id : Nat)
    (reserved : Option Reserved) : Faithful (Token.numeric config id) reserved := by
  have hc := separated_of_validate hconfig
  intro s text hrun draws c s' hpropose
  have hconf : Confined s :=
    confined_fresh.runFrom hc ((run_numeric config id {} [] text).symm.trans hrun)
  obtain ⟨target, hopen, henter, hs', -⟩ :=
    Machine.exists_of_propose (m := machine config) hpropose
  obtain ⟨hmem, ha⟩ := List.mem_filter.mp hopen
  exact ⟨(advance_eq_some_iff hc hconf.sane).mpr ⟨target, hmem, ha, henter, hs'⟩,
    toNat_lt_of_canEnter hconfig henter⟩

/-- **A complete literal has no problem** on either way back. -/
theorem roundTripProblem_of_runFrom (hconfig : config.validate = .ok ()) (id : Nat) {l : Lexeme}
    {s : Progress} (hs : runFrom config {} l.text = some s) (hvalid : s.valid = true)
    (hl : l.value = some (decode config s)) :
    roundTripProblem (Token.numeric config id) l = .ok none := by
  have hagain := extract_of_runFrom hconfig id none .utf8 hs hvalid
  rw [roundTripProblem, hl]
  simp only [hagain, bind, Except.bind, readsAs, ne_eq, not_true_eq_false, if_false,
    beq_self_eq_true, Option.map_some, Bool.and_self, Bool.not_true, Bool.false_eq_true]
  cases hwritten : (Token.numeric config id).written (decode config s) with
  | none => rfl
  | some text =>
    obtain ⟨s', hs', hvalid', hkind, -⟩ :=
      exists_run_of_written (separated_of_validate hconfig) hwritten
    simp [extract_of_runFrom hconfig id none .utf8 hs' hvalid', hkind, pure, Except.pure]

/-- **What is generated has no problem, unless it is incomplete.** -/
theorem roundTripProblem_generated (hconfig : config.validate = .ok ()) (id : Nat)
    (reserved : Option Reserved) (low high : Nat) (draws : Draws) :
    ∃ l rest, generate (Token.numeric config id) reserved low high draws = .ok (l, rest)
      ∧ roundTripProblem (Token.numeric config id) l
        = .ok (if l.isRecognized then none else some .incomplete) := by
  obtain ⟨d, hd, hgenerate⟩ := (faithful_numeric hconfig id reserved).exists_draft low high draws
  refine ⟨_, _, hgenerate, ?_⟩
  have hrun : runFrom config {} d.text = some d.state :=
    (run_numeric config id {} [] d.text).symm.trans hd.run
  rw [Draft.lexeme]
  split_ifs with hvalid hrecognized hrecognized
  · exact roundTripProblem_of_runFrom hconfig id hrun hvalid rfl
  · exact absurd rfl hrecognized
  · exact absurd hrecognized Bool.false_ne_true
  · rfl

/-! ## Many literals -/

/-- What each element comes to, the whole list comes to. -/
theorem mapM_eq_ok {ε α β : Type} {f : α → Except ε β} {g : α → β} {items : List α}
    (h : ∀ x ∈ items, f x = .ok (g x)) : items.mapM f = .ok (items.map g) := by
  induction items with
  | nil => rfl
  | cons x items ih =>
    obtain ⟨hx, hitems⟩ := List.forall_mem_cons.mp h
    rw [List.mapM_cons, hx, ih hitems]
    rfl

/-- **Generating many literals** comes to a list, each element of which has no
problem unless it is incomplete. -/
theorem roundTripProblem_generateMany (hconfig : config.validate = .ok ()) (id : Nat)
    (reserved : Option Reserved) (low high count : Nat) (draws : Draws) :
    ∃ literals, generateMany (Token.numeric config id) reserved low high count draws = .ok literals
      ∧ ∀ l ∈ literals, roundTripProblem (Token.numeric config id) l
        = .ok (if l.isRecognized then none else some .incomplete) := by
  induction count generalizing draws with
  | zero => exact ⟨[], rfl, fun _ hl => absurd hl List.not_mem_nil⟩
  | succ count ih =>
    obtain ⟨l, rest, hgenerate, hl⟩ :=
      roundTripProblem_generated hconfig id reserved low high draws
    obtain ⟨literals, hmany, hliterals⟩ := ih rest
    refine ⟨l :: literals, ?_, List.forall_mem_cons.mpr ⟨hl, hliterals⟩⟩
    rw [generateMany, hgenerate]
    simp only [bind, Except.bind, hmany]
    rfl

/-- **Checking generated literals** reports those that the generator left
incomplete, and no other. -/
theorem checkLiterals_generated (hconfig : config.validate = .ok ()) (id : Nat)
    (reserved : Option Reserved) (low high count : Nat) (draws : Draws) :
    ∃ literals, generateMany (Token.numeric config id) reserved low high count draws = .ok literals
      ∧ CommandLine.checkLiterals (Token.numeric config id) literals
        = .ok ((literals.filter (!·.isRecognized)).map
            (CommandLine.roundTripDiagnostic · .incomplete)) := by
  obtain ⟨literals, hmany, hliterals⟩ :=
    roundTripProblem_generateMany hconfig id reserved low high count draws
  refine ⟨literals, hmany, ?_⟩
  rw [CommandLine.checkLiterals, mapM_eq_ok (g := fun l =>
    (l, if l.isRecognized then none else some .incomplete)) fun l hl => by rw [hliterals l hl]; rfl]
  refine congrArg Except.ok ?_
  rw [List.filterMap_map, ← List.filterMap_eq_map, List.filterMap_filter]
  refine List.filterMap_congr fun l _ => ?_
  cases h : l.isRecognized <;> simp [h]

/-- **Generated lexemes read back unchanged.** Numeric literals, identifiers
under any reserved words, characters and fixed texts of ASCII characters are
extracted again as the lexemes they were generated as; and a check of generated
numeric literals counts those that the generator left unrecognized. -/
theorem generated_reads_back (hconfig : config.validate = .ok ()) (id : Nat)
    (reserved : Option Reserved) {c : Char} (hc : c.toNat < 0x80) {content : List Char}
    (hcontent : IsAscii content) :
    ReadsBack (Token.numeric config id) reserved
      ∧ ReadsBack (Token.keyname id) reserved
      ∧ ReadsBack (Token.char id c) reserved
      ∧ (∀ g, Token.fixed id content = .ok g → ReadsBack g reserved)
      ∧ (∀ low high draws l rest,
          generate (Token.numeric config id) reserved low high draws = .ok (l, rest) →
          l.isRecognized = true → roundTripProblem (Token.numeric config id) l = .ok none)
      ∧ ∀ low high count draws, ∃ literals,
          generateMany (Token.numeric config id) reserved low high count draws = .ok literals
            ∧ CommandLine.checkLiterals (Token.numeric config id) literals
              = .ok ((literals.filter (!·.isRecognized)).map
                  (CommandLine.roundTripDiagnostic · .incomplete)) := by
  refine ⟨(faithful_numeric hconfig id reserved).readsBack,
    (faithful_keyname id reserved).readsBack, (faithful_char id hc reserved).readsBack,
    fun g hg => (faithful_fixed hg hcontent reserved).readsBack, ?_,
    checkLiterals_generated hconfig id reserved⟩
  intro low high draws l rest hgenerate hl
  obtain ⟨l', rest', hgenerate', hproblem⟩ :=
    roundTripProblem_generated hconfig id reserved low high draws
  obtain ⟨rfl, rfl⟩ := Prod.mk.inj (Except.ok.inj (hgenerate'.symm.trans hgenerate))
  rw [hproblem, if_pos hl]

/-- A negative number of a kind without sign, drawn from words that are all the
same. -/
theorem generated_reads_back_wrapped :
    roundTripProblem (Token.numeric {} 0)
      ⟨0, 3, 1, 0, ['-', '5', 'u'], some (.u8 251), some ⟨0, "numeric"⟩⟩ = .ok none :=
  (@generated_reads_back {} rfl 0 none '+' (by decide) ['i', 'f'] (by decide)).2.2.2.2.1
    3 3 ⟨fun _ => 0x80000000, 0⟩ _ _ rfl rfl

end Lexing.Numeric
