import BlockGraph.Text.Hidden

/-!
Quoted text: a text in double quotes, in which every character can be seen.

A quote and a backslash are marked with a backslash.  Tab, return, newline and the zero character
have a mark with a letter, and any other hidden character is written by its code point.
-/

namespace BlockGraph.Text

def hexDigits (n : Nat) : String :=
  String.ofList (Nat.toDigits 16 n)

def quoteChar (c : Char) : String :=
  if c = '"' then "\\\""
  else if c = '\\' then "\\\\"
  else if c = '\t' then "\\t"
  else if c = '\r' then "\\r"
  else if c = '\n' then "\\n"
  else if c = '\x00' then "\\0"
  else if isHidden c then "\\u\x7b" ++ hexDigits c.toNat ++ "\x7d"
  else String.singleton c

def quote (s : String) : String :=
  "\"" ++ String.join (s.toList.map quoteChar) ++ "\""

end BlockGraph.Text
