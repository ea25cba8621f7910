import BlockGraph.Toml.Parser

/-!
White space, comments, texts and keys.

A text stands in double quotes, where a backslash begins an escape, or in single quotes, where
everything stands for itself.  Three quotes of either kind enclose a text of several lines.  In all
of them a line ends with a single line feed, however it ended in the file.
-/

namespace BlockGraph.Toml

open BlockGraph.Toml.Parser

/-! ## White space -/

def isSpace (c : Char) : Bool :=
  c = ' ' || c = '\t'

def isVisible (c : Char) : Bool :=
  c = '\t' || (0x20 ≤ c.toNat && c.toNat ≠ 0x7f)

def spaces : Parser Unit := do
  let _ ← takeWhile isSpace

def newline : Parser Unit :=
  char '\n' <|> word "\r\n"

def comment : Parser Unit := do
  char '#'
  let _ ← takeWhile isVisible

/-- The end of a line, or of the file. -/
def lineEnd : Parser Unit :=
  newline <|> endOfText

/-- What may stand after something that takes the rest of its line. -/
def restOfLine : Parser Unit := do
  spaces
  let _ ← maybe comment
  lineEnd

/-- What may stand between the items of an array. -/
def gap : Parser Unit := do
  let _ ← many (newline <|> comment <|> (do let _ ← satisfy isSpace))

/-! ## Texts -/

def isHexDigit (c : Char) : Bool :=
  c.isDigit || ('a' ≤ c && c ≤ 'f') || ('A' ≤ c && c ≤ 'F')

/-- The value of a digit, with letters for the digits from ten. -/
def digitValue (c : Char) : Nat :=
  if c.isDigit then c.toNat - '0'.toNat
  else if 'a' ≤ c then c.toNat - 'a'.toNat + 10
  else c.toNat - 'A'.toNat + 10

def ofDigits (base : Nat) (digits : List Char) : Nat :=
  digits.foldl (fun n c => base * n + digitValue c) 0

/-- The character with a code of `n` hexadecimal digits. -/
def codePoint (n : Nat) : Parser Char := do
  let code := ofDigits 16 (← takeExactly n isHexDigit)
  if code.isValidChar then return Char.ofNat code else failure

/-- A character written with a backslash. -/
def escape : Parser Char := do
  char '\\'
  match ← satisfy fun _ => true with
  | 'b' => return '\x08'
  | 't' => return '\t'
  | 'n' => return '\n'
  | 'f' => return '\x0c'
  | 'r' => return '\r'
  | '"' => return '"'
  | '\\' => return '\\'
  | 'u' => codePoint 4
  | 'U' => codePoint 8
  | _ => failure

def isPlain (c : Char) : Bool :=
  isVisible c && c ≠ '"' && c ≠ '\\'

def isRaw (c : Char) : Bool :=
  isVisible c && c ≠ '\''

/-- A text in double quotes. -/
def basicText : Parser String := do
  char '"'
  let cs ← many (satisfy isPlain <|> escape)
  char '"'
  return String.ofList cs

/-- A text in single quotes. -/
def literalText : Parser String := do
  char '\''
  let cs ← takeWhile isRaw
  char '\''
  return String.ofList cs

/-- One or two quotes within a text of several lines, where no further quote follows. -/
def innerQuotes (q : Char) : Parser (List Char) := do
  let quotes ← takeWhile (· = q)
  if quotes.length = 1 || quotes.length = 2 then
    lookahead fun cs => !cs.isEmpty
    return quotes
  else failure

/-- The three quotes at the end of a text of several lines, and up to two quotes before them that
still belong to the text. -/
def closingQuotes (q : Char) : Parser (List Char) := do
  let quotes ← takeWhile (· = q)
  if 3 ≤ quotes.length && quotes.length ≤ 5 then return quotes.drop 3 else failure

/-- A backslash at the end of a line, which takes the white space after it away. -/
def lineContinuation : Parser Unit := do
  char '\\'
  spaces
  newline
  let _ ← many (newline <|> (do let _ ← satisfy isSpace))

/-- A text of several lines between three quotes, made of the given pieces. -/
def multiline (q : Char) (piece : Parser (List Char)) : Parser String := do
  let _ ← takeExactly 3 (· = q)
  let _ ← maybe newline
  let pieces ← many (piece <|> (do newline; return ['\n']) <|> innerQuotes q)
  let quotes ← closingQuotes q
  return String.ofList (pieces.flatten ++ quotes)

def multilineBasicText : Parser String :=
  multiline '"'
    ((do return [← satisfy isPlain]) <|> (do lineContinuation; return []) <|>
      (do return [← escape]))

def multilineLiteralText : Parser String :=
  multiline '\'' (do return [← satisfy isRaw])

def text : Parser String :=
  multilineBasicText <|> basicText <|> multilineLiteralText <|> literalText

/-! ## Keys -/

/-- A character of a key without quotes. -/
def isKeyChar (c : Char) : Bool :=
  c.isAlphanum || c = '-' || c = '_'

def bareKey : Parser String := do
  let cs ← takeWhile isKeyChar
  if cs.isEmpty then failure else return String.ofList cs

/-- How deep values may be nested, and how many parts a key may have. -/
def maxDepth : Nat := 79

/-- A key with one part or more, divided by dots. -/
def dottedKey : Parser (List String) := do
  let parts ← separated
    (do
      spaces
      let part ← basicText <|> literalText <|> bareKey
      spaces
      return part)
    (char '.')
  if parts.length ≤ maxDepth then return parts else failure

end BlockGraph.Toml
