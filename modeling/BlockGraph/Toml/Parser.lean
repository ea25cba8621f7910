/-!
Parsers on characters.

A parser takes characters from the front of a text and gives a value, or it fails.  Where one way of
reading fails, another can be tried from the same place.

A parser that is run over and over takes a character at least each time.  So it runs no more often
than the text has characters, and a parser is given that number as a bound.
-/

namespace BlockGraph.Toml

abbrev Parser (α : Type) := ReaderT Nat (StateT (List Char) Option) α

namespace Parser

variable {α : Type}

def satisfy (p : Char → Bool) : Parser Char := fun _ cs =>
  match cs with
  | c :: rest => if p c then some (c, rest) else none
  | [] => none

def char (c : Char) : Parser Unit := do
  let _ ← satisfy (· = c)

def word (s : String) : Parser Unit :=
  s.toList.forM char

def takeWhile (p : Char → Bool) : Parser (List Char) := fun _ cs =>
  some (cs.takeWhile p, cs.dropWhile p)

/-- Exactly `n` characters that satisfy a condition. -/
def takeExactly (n : Nat) (p : Char → Bool) : Parser (List Char) := fun _ cs =>
  let taken := cs.take n
  if taken.length = n && taken.all p then some (taken, cs.drop n) else none

/-- Succeeds where a condition holds of the characters that follow, and takes none. -/
def lookahead (p : List Char → Bool) : Parser Unit := fun _ cs =>
  if p cs then some ((), cs) else none

def endOfText : Parser Unit :=
  lookahead List.isEmpty

/-- What a parser reads, if it can. -/
def maybe (p : Parser α) : Parser (Option α) := fun bound cs =>
  match p bound cs with
  | some (a, rest) => some (some a, rest)
  | none => some (none, cs)

/-- What is read over and over, at most a number of times and until it cannot be read. -/
def repeated (p : List Char → Option (α × List Char)) : Nat → List Char → List α × List Char
  | 0, cs => ([], cs)
  | n + 1, cs =>
    match p cs with
    | none => ([], cs)
    | some (a, rest) =>
      let more := repeated p n rest
      (a :: more.1, more.2)

def many (p : Parser α) : Parser (List α) := fun bound cs =>
  some (repeated (p bound) bound cs)

/-- One thing or more, with something between each two. -/
def separated (p : Parser α) (between : Parser Unit) : Parser (List α) := do
  let a ← p
  let as ← many (do between; p)
  return a :: as

end Parser

end BlockGraph.Toml
