import Lexing.Charset.Category
import Lexing.Charset.Encoding
import Lexing.CommandLine.Arguments
import Lexing.CommandLine.Failure
import Lexing.CommandLine.Run
import Lexing.Config
import Lexing.Diagnostic
import Lexing.Extract
import Lexing.Fault
import Lexing.Generate
import Lexing.Grammar
import Lexing.Grammar.Rows
import Lexing.Json
import Lexing.Lexeme
import Lexing.Main
import Lexing.Number.Binary
import Lexing.Number.Layout
import Lexing.Number.Shortest
import Lexing.Policy
import Lexing.Random.ChaCha
import Lexing.Random.Congruential
import Lexing.Random.Draws
import Lexing.Reserved
import Lexing.RoundTrip
import Lexing.Scanner
import Lexing.Source.LineTable
import Lexing.Source.Span
import Lexing.Text.Printable
import Lexing.Text.Quoted
import Lexing.Token
import Lexing.Token.Catalog
import Lexing.Token.Fixed
import Lexing.Token.Keyname
import Lexing.Token.Machine
import Lexing.Token.Numeric
import Lexing.Token.Numeric.Config
import Lexing.Token.Numeric.Decode
import Lexing.Token.Numeric.Grammar
import Lexing.Token.Numeric.Written
import Lexing.Token.Table
import Lexing.Tokenizer
import Lexing.Tokenizer.Candidate
import Lexing.Tokenizer.Config
import Lexing.Toml.Document
import Lexing.Toml.Printed
import Lexing.Toml.Scalar
import Lexing.Toml.Value
import Lexing.Value
import Lexing.Proofs.Numeric.Forms
import Lexing.Proofs.Numeric.Step
import Lexing.Proofs.Numeric.Parts
import Lexing.Proofs.Numeric.Language
import Lexing.Proofs.Numeric.Run
import Lexing.Proofs.Numeric.Digits
import Lexing.Proofs.Numeric.Spelling
import Lexing.Proofs.Numeric.Integer
import Lexing.Proofs.Numeric.Width
import Lexing.Proofs.Numeric.Written
import Lexing.Proofs.Numeric.ReadBack
import Lexing.Proofs.Numeric.Generated
import Lexing.Proofs.Number.Printed
import Lexing.Proofs.Charset.Glyphs
import Lexing.Proofs.Source.Lines
import Lexing.Proofs.Source.Breaks
import Lexing.Proofs.Source.Edits
import Lexing.Proofs.Tokenizer.Signature
import Lexing.Proofs.Tokenizer.Heard
import Lexing.Proofs.Tokenizer.Bucket
import Lexing.Proofs.Tokenizer.Step
import Lexing.Proofs.Tokenizer.Outcome
import Lexing.Proofs.Tokenizer.Placed
import Lexing.Proofs.Tokenizer.Feed
import Lexing.Proofs.Scanner.Scan
import Lexing.Proofs.Token.Run
import Lexing.Proofs.Token.Whole
import Lexing.Proofs.Token.Generated
import Lexing.Proofs.Token.Ambiguous
import Lexing.Proofs.Tokenizer.Aligned
import Lexing.Proofs.Scanner.Sound
import Lexing.Proofs.Scanner.Characters
import Lexing.Proofs.Tokenizer.Sequential
import Lexing.Proofs.Tokenizer.Origin
import Lexing.Proofs.Tokenizer.Driven
import Lexing.Proofs.Scanner.Stage
import Lexing.Proofs.Scanner.Cover
import Lexing.Proofs.Scanner.Prospect
import Lexing.Proofs.Scanner.Reference
import Lexing.Proofs.Scanner.Await
import Lexing.Proofs.Scanner.Choice
import Lexing.Proofs.Scanner.Munch
import Lexing.Proofs.Scanner.Extraction
import Lexing.Proofs.Tokenizer.Taken
import Lexing.Proofs.Tokenizer.Tracked
import Lexing.Proofs.Tokenizer.Undo
import Lexing.Proofs.Scanner.Located
import Lexing.Proofs.Scanner.Forward
import Lexing.Proofs.Scanner.Decided
import Lexing.Proofs.Scanner.EveryMatch
import Lexing.Proofs.Scanner.Untaken
import Lexing.Proofs.Tokenizer.Recoded
import Lexing.Proofs.Scanner.Recoded
import Lexing.Proofs.Tokenizer.Shifted
import Lexing.Proofs.Scanner.Shifted
import Lexing.Proofs.Scanner.Pieces
import Lexing.Proofs.Scanner.Reported
import Lexing.Proofs.CommandLine.Denied
import Lexing.Proofs.Numeric.Announced
import Lexing.Proofs.Numeric.Dropped
import Lexing.Proofs.Numeric.Kind
import Lexing.Proofs.Numeric.Respelled
import Lexing.Proofs.Token.Longest
import Lexing.Proofs.Tokenizer.Terminated
import Lexing.Proofs.Scanner.Policed
import Lexing.Proofs.Tokenizer.Lined
import Lexing.Proofs.Tokenizer.First
import Lexing.Proofs.Tokenizer.Overtaken
import Lexing.Proofs.Numeric.Scaled
import Lexing.Proofs.Policy.Rules
import Lexing.Proofs.Toml.Texts
import Lexing.Proofs.Toml.Values
import Lexing.Proofs.Toml.Lines
import Lexing.Proofs.Toml.Tables
import Lexing.Proofs.Config.ReadBack
import Lexing.Proofs.Scanner.Vain
import Lexing.Proofs.CommandLine.Recognized
import Lexing.Proofs.Scanner.Units
import Lexing.Proofs.Scanner.Malformed
import Lexing.Proofs.Tokenizer.Heeded
import Lexing.Proofs.Tokenizer.Oldest
