import BlockGraph.Toml.Number
import BlockGraph.Toml.Table

/-!
Documents in TOML.

A document is a list of lines: headers of tables, and keys with values.  `read` gives the table that
the lines put together, or nothing if the text is not a document.
-/

namespace BlockGraph.Toml

open BlockGraph.Toml.Parser

/-! ## Values -/

/-- A date or time, as a table that holds its text under a key of its own. -/
def dated (s : String) : Data :=
  .table [("$__toml_private_datetime", .text s)]

def scalar : Parser Data :=
  (do return .text (← text)) <|>
  (do return dated (← dateTime)) <|>
  (do float <|> specialFloat; return .other) <|>
  (do return .number (← integer)) <|>
  (do word "true" <|> word "false"; return .other)

def array (item : Parser Data) : Parser Data := do
  char '['
  let items ← maybe (do
    let items ← separated
      (do
        gap
        let d ← item
        gap
        return d)
      (char ',')
    let _ ← maybe (char ',')
    return items)
  gap
  char ']'
  return .list (items.getD [])

/-- A key with the value after it. -/
def keyValue (item : Parser Data) : Parser (List String × Data) := do
  let key ← dottedKey
  char '='
  spaces
  let d ← item
  spaces
  return (key, d)

def inlineTable (item : Parser Data) : Parser Data := do
  char '\x7b'
  let pairs ← maybe (separated (keyValue item) (char ','))
  spaces
  char '\x7d'
  match Table.addAll (pairs.getD []) (.empty .given) with
  | some t => return t.toData
  | none => failure

/-- A value with at most `depth` arrays and tables around one another. -/
def value : Nat → Parser Data
  | 0 => scalar
  | depth + 1 => scalar <|> array (value depth) <|> inlineTable (value depth)

/-! ## Lines -/

inductive Line where
  /-- A blank line, or one with nothing but a comment. -/
  | blank
  /-- The header of a table. -/
  | table (path : List String)
  /-- The header of the next table of an array. -/
  | tables (path : List String)
  | entry (path : List String) (d : Data)

def header : Parser Line :=
  (do
    word "[["
    let path ← dottedKey
    word "]]"
    restOfLine
    return .tables path) <|> do
  char '['
  let path ← dottedKey
  char ']'
  restOfLine
  return .table path

def line : Parser Line :=
  (do newline; return .blank) <|>
  (do comment; lineEnd; return .blank) <|>
  header <|> do
    let (path, d) ← keyValue (value maxDepth)
    restOfLine
    return .entry path d

/-- The lines of a document, up to its end.  A mark of the byte order at its beginning is left
out. -/
def lines : Parser (List Line) := do
  let _ ← maybe (char '\ufeff')
  spaces
  let ls ← many (do
    let l ← line
    spaces
    return l)
  endOfText
  return ls

/-! ## Putting the lines together -/

/-- A document of which some lines have been read. -/
structure Progress where
  root : Table := .empty .given
  /-- The path of the open table. -/
  opened : List String := []

namespace Progress

/-- Adds a line to a document. -/
def step (p : Progress) : Line → Option Progress
  | .blank => some p
  | .table path =>
    match path.getLast? with
    | none => none
    | some key =>
      (p.root.update .around path.dropLast (Table.give key)).map fun root =>
        { root, opened := path }
  | .tables path =>
    match path.getLast? with
    | none => none
    | some key =>
      (p.root.update .around path.dropLast (Table.beginNext key)).map fun root =>
        { root, opened := path }
  | .entry path d =>
    (p.root.update .around p.opened (Table.addAll [(path, d)])).map fun root => { p with root }

def run (p : Progress) : List Line → Option Progress
  | [] => some p
  | l :: rest => (p.step l).bind fun p => p.run rest

end Progress

def read (s : String) : Option Data :=
  match lines s.length s.toList with
  | some (ls, _) => (Progress.run {} ls).map fun p => p.root.toData
  | none => none

end BlockGraph.Toml
