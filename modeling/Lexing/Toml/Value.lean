/-!
# TOML documents

A document is a table: names and what they stand for. While a document is
read, it matters how a table came about, because a table may be opened by one
header only and may not be extended behind its end; so each table carries its
origin. Floating-point numbers and dates are told apart from the other values
but their contents are not kept.
-/

namespace Lexing

/-- How a table came about. -/
inductive TableOrigin where
  /-- written between braces -/
  | inline
  /-- by the dots of a name -/
  | dotted
  /-- by a header of a table inside it -/
  | implicit
  /-- by a header of its own -/
  | header
  deriving DecidableEq

/-- A value of a document. -/
inductive Toml where
  | text (s : List Char)
  | integer (n : Int)
  | float
  | boolean (b : Bool)
  | date
  /-- an array written between brackets -/
  | array (items : List Toml)
  /-- an array of tables with a header each -/
  | tables (items : List Toml)
  | table (origin : TableOrigin) (entries : List (List Char × Toml))

namespace Toml

/-- The names of a table and what they stand for. -/
abbrev Entries := List (List Char × Toml)

/-- The value of a name. -/
def find? (entries : Entries) (name : List Char) : Option Toml := entries.lookup name

/-- Give a name another value, in its place. -/
def replace (entries : Entries) (name : List Char) (v : Toml) : Entries :=
  entries.map fun (n, w) => if n = name then (n, v) else (n, w)

/-- Give a name a value, unless it has one. -/
def insertNew (entries : Entries) (name : List Char) (v : Toml) : Option Entries :=
  if (find? entries name).isSome then none else some (entries ++ [(name, v)])

/-- **Change the table at the end of a path.** Tables on the way are made where
there are none, and of an array of tables the last one is meant. With
`byDots` the path belongs to a name with dots, which may not reach into a
table that has a header. -/
def changeAt (byDots : Bool) (change : TableOrigin → Entries → Option Entries) :
    TableOrigin → List (List Char) → Entries → Option Entries
  | origin, [], entries => change origin entries
  | _, name :: path, entries =>
    match find? entries name with
    | none => do
      let origin := if byDots then TableOrigin.dotted else .implicit
      let inner ← changeAt byDots change origin path []
      return entries ++ [(name, .table origin inner)]
    | some (.table origin inner) =>
      if origin = .inline ∨ (byDots ∧ origin = .header) then none
      else do
        let inner ← changeAt byDots change origin path inner
        return replace entries name (.table origin inner)
    | some (.tables items) =>
      match items.getLast? with
      | some (.table origin inner) => do
        let inner ← changeAt byDots change origin path inner
        return replace entries name (.tables (items.dropLast ++ [.table origin inner]))
      | _ => none
    | some _ => none

/-- Give the name at the end of a dotted path a value. The dots of the name
may only lead to tables made by dots. -/
def put (path : List (List Char)) (name : List Char) (v : Toml) (origin : TableOrigin)
    (entries : Entries) : Option Entries :=
  changeAt true (fun origin entries =>
      if path ≠ [] ∧ origin ≠ .dotted then none else insertNew entries name v)
    origin path entries

/-- Open the table of a header. -/
def openTable (path : List (List Char)) (name : List Char) (root : Entries) : Option Entries :=
  changeAt false (fun _ entries =>
      match find? entries name with
      | none => some (entries ++ [(name, .table .header [])])
      | some (.table .implicit inner) => some (replace entries name (.table .header inner))
      | some _ => none)
    .header path root

/-- Open the next table of an array of tables. -/
def openNext (path : List (List Char)) (name : List Char) (root : Entries) : Option Entries :=
  changeAt false (fun _ entries =>
      match find? entries name with
      | none => some (entries ++ [(name, .tables [.table .header []])])
      | some (.tables items) =>
        some (replace entries name (.tables (items ++ [.table .header []])))
      | some _ => none)
    .header path root

end Toml

end Lexing
