import Lexing.Toml.Scalar

/-!
# Reading a TOML document

A document is read line by line. A line opens a table, gives a name a value in
the table opened last, or is blank. Values may run over several lines inside
brackets.
-/

namespace Lexing.Toml

/-- The items of an array behind its opening bracket. -/
def items? (read : List Char → Option (Toml × List Char)) :
    Nat → List Char → Option (List Toml × List Char)
  | 0, _ => none
  | fuel + 1, s =>
    match skipLines (s.length + 1) s with
    | ']' :: rest => some ([], rest)
    | s => do
      let (v, rest) ← read s
      match skipLines (rest.length + 1) rest with
      | ',' :: rest => do
        let (more, rest) ← items? read fuel rest
        return (v :: more, rest)
      | ']' :: rest => return ([v], rest)
      | _ => none

/-- A name and its value, with blanks around each. -/
def assignment? (read : List Char → Option (Toml × List Char)) (s : List Char) :
    Option ((List (List Char) × Toml) × List Char) := do
  let (path, rest) ← dottedName? maxDepth s
  let rest ← expect? '=' rest
  let (v, rest) ← read (skipBlanks rest)
  return ((path, v), skipBlanks rest)

/-- Enter an assignment into a table. -/
def assign (path : List (List Char)) (v : Toml) (origin : TableOrigin) (entries : Entries) :
    Option Entries := do
  let name ← path.getLast?
  put path.dropLast name v origin entries

/-- The assignments of a table in braces, added to those before. -/
def members? (read : List Char → Option (Toml × List Char)) :
    Nat → Entries → List Char → Option (Entries × List Char)
  | 0, _, _ => none
  | fuel + 1, entries, s => do
    let ((path, v), rest) ← assignment? read s
    let entries ← assign path v .inline entries
    match rest with
    | ',' :: rest => members? read fuel entries rest
    | '\x7d' :: rest => return (entries, rest)
    | _ => none

/-- A table behind its opening brace. -/
def braces? (read : List Char → Option (Toml × List Char)) (s : List Char) :
    Option (Entries × List Char) :=
  match skipBlanks s with
  | '\x7d' :: rest => some ([], rest)
  | s => members? read (s.length + 1) [] s

/-- **A value**, with at most `depth` values around one another. -/
def value? : (depth : Nat) → List Char → Option (Toml × List Char)
  | 0, s => scalar? s
  | depth + 1, s =>
    match s with
    | '[' :: rest =>
      (items? (value? depth) (rest.length + 1) rest).map fun (items, rest) => (.array items, rest)
    | '\x7b' :: rest =>
      (braces? (value? depth) rest).map fun (entries, rest) => (.table .inline entries, rest)
    | s => scalar? s

/-- A document as far as it has been read, and the path of the table opened
last. -/
structure Draft where
  root : Entries := []
  current : List (List Char) := []

/-- What follows the name of a header, behind its closing brackets. -/
def header? (close : List Char) (s : List Char) : Option (List (List Char) × List Char) := do
  let (path, rest) ← dottedName? maxDepth s
  let rest ← close.foldlM (fun rest c => expect? c rest) rest
  return (path, rest)

/-- Open a table or the next one of an array. -/
def Draft.open? (d : Draft) (path : List (List Char)) (next : Bool) : Option Draft := do
  let name ← path.getLast?
  let root ←
    if next then openNext path.dropLast name d.root else openTable path.dropLast name d.root
  return ⟨root, path⟩

/-- Enter an assignment into the table opened last. -/
def Draft.assign? (d : Draft) (path : List (List Char)) (v : Toml) : Option Draft := do
  let root ← changeAt false (assign path v) .header d.current d.root
  return { d with root }

/-- **Read one line.** -/
def line? (d : Draft) (s : List Char) : Option (Draft × List Char) :=
  match skipBlanks s with
  | '[' :: '[' :: rest => do
    let (path, rest) ← header? [']', ']'] rest
    return (← d.open? path true, ← lineEnd? rest)
  | '[' :: rest => do
    let (path, rest) ← header? [']'] rest
    return (← d.open? path false, ← lineEnd? rest)
  | s =>
    match lineEnd? s with
    | some rest => some (d, rest)
    | none => do
      let ((path, v), rest) ← assignment? (value? maxDepth) s
      return (← d.assign? path v, ← lineEnd? rest)

/-- Read lines until none is left. -/
def lines? : Nat → Draft → List Char → Option Draft
  | 0, d, s => if s = [] then some d else none
  | fuel + 1, d, s =>
    if s = [] then some d
    else do
      let (d, rest) ← line? d s
      lines? fuel d rest

/-- **Read a document.** A byte order mark in front of it is passed over. -/
def document? (s : List Char) : Option Toml :=
  let s := match s with
    | '\ufeff' :: rest => rest
    | s => s
  (lines? s.length {} s).map fun d => .table .header d.root

end Lexing.Toml
