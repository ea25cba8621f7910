import BlockGraph.Text.LetterCase
import BlockGraph.Text.Word

/-!
The tokens of a written type.

A word is a longest run of underscores and alphanumeric characters.  Its first character makes it a
name (an underscore or an uppercase character) or a variable (a lowercase character).  Blanks
separate tokens and mean nothing else.  Where no token starts, scanning ends with `Token.junk`.
-/

namespace BlockGraph

/-- A token of a written type. -/
inductive Token where
  | name (word : String)
  | var (word : String)
  | arrow
  | lparen
  | rparen
  /-- Something that is not a token, which ends the scan. -/
  | junk
  deriving DecidableEq

/-- A token and the byte offset that it starts at. -/
structure Lexeme where
  token : Token
  offset : Nat

namespace Token

/-- The blanks between tokens. -/
def isSpace (c : Char) : Bool :=
  c = ' ' || c = '\t' || c = '\r' || c = '\n'

def isWordChar (c : Char) : Bool :=
  c = '_' || Text.isAlphanumeric c

/-- The token of a word, by its first character. -/
def ofWord (first : Char) (rest : List Char) : Token :=
  if first = '_' || Text.isUppercase first then name (String.ofList (first :: rest))
  else if Text.isLowercase first then var (String.ofList (first :: rest))
  else junk

def byteSize : List Char → Nat
  | [] => 0
  | c :: cs => c.utf8Size + byteSize cs

/-- The tokens of a text that starts at the byte offset `offset`, up to the first place where no
token starts. -/
def scan (offset : Nat) : List Char → List Lexeme
  | [] => []
  | '-' :: '>' :: rest => ⟨arrow, offset⟩ :: scan (offset + 2) rest
  | c :: rest =>
    if isSpace c then scan (offset + 1) rest
    else if c = '(' then ⟨lparen, offset⟩ :: scan (offset + 1) rest
    else if c = ')' then ⟨rparen, offset⟩ :: scan (offset + 1) rest
    else if isWordChar c then
      let tail := rest.takeWhile isWordChar
      ⟨ofWord c tail, offset⟩ ::
        scan (offset + byteSize (c :: tail)) (rest.dropWhile isWordChar)
    else [⟨junk, offset⟩]
termination_by cs => cs.length
decreasing_by
  all_goals simp only [List.length_cons]
  · omega
  · omega
  · omega
  · omega
  · have := (List.dropWhile_suffix (l := rest) isWordChar).length_le
    omega

end Token

end BlockGraph
