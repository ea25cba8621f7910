import BlockGraph.Text.CharSet

/-!
The width of emoji that several characters make up together.

A picture takes two columns.  So do a picture with a skin tone after it, and pictures that are
joined into one, whatever their number.  The width of a text is added up from its end, and an
`EmojiTail` says how the part that has been added up begins.  A character that only adds to the
picture at the beginning takes no column of its own; where two columns have been counted for what
turns out to be one picture, the character takes back what was too much.  -/

namespace BlockGraph.Text

/-- Characters that are shown as pictures on their own. -/
def pictureChars : CharSet := .ofStretches
  [8986, 2, 205, 4, 3, 1, 2, 1, 521, 2, 21, 2, 50, 12, 43, 1, 19, 1, 13, 1, 8, 2, 17, 2, 5, 2, 8, 1,
   5, 1, 21, 1, 7, 2, 1, 1, 4, 1, 2, 1, 7, 1, 4, 2, 28, 1, 35, 1, 1, 1, 4, 3, 1, 1, 61, 3, 24, 1,
   14, 1, 859, 2, 51, 1, 4, 1, 115886, 1, 202, 1, 190, 1, 2, 10, 102, 1, 24, 1, 20, 1, 2, 5, 1, 3,
   21, 2, 174, 33, 12, 9, 1, 70, 1, 22, 12, 43, 4, 5, 12, 17, 3, 1, 3, 3, 5, 63, 1, 1, 1, 187, 2,
   63, 13, 4, 1, 24, 18, 1, 26, 2, 13, 1, 86, 85, 48, 70, 6, 1, 3, 3, 2, 5, 2, 4, 11, 2, 7, 9, 227,
   12, 4, 1, 283, 47, 1, 10, 1, 185, 112, 13, 3, 71, 1, 1, 3, 18, 1, 13, 3, 12]

/-- Characters that can be shown both as a picture and as a sign of text.  The selector after them
says which. -/
def selectableChars : CharSet := .ofStretches
  [35, 1, 6, 1, 5, 10, 111, 1, 4, 1, 8077, 1, 12, 1, 216, 1, 22, 1, 90, 6, 15, 2, 367, 2, 12, 1,
   166, 1, 25, 11, 4, 3, 199, 1, 231, 2, 10, 1, 9, 1, 58, 4, 1, 5, 9, 1, 2, 1, 2, 2, 2, 1, 4, 1, 2,
   1, 1, 2, 2, 1, 3, 1, 3, 2, 8, 3, 5, 1, 1, 1, 5, 12, 11, 2, 2, 1, 1, 2, 1, 1, 18, 1, 2, 2, 18, 6,
   1, 1, 1, 2, 3, 2, 5, 1, 2, 2, 4, 2, 11, 2, 5, 2, 2, 1, 5, 2, 1, 1, 1, 2, 20, 2, 5, 6, 1, 4, 2, 1,
   4, 1, 2, 1, 2, 6, 1, 1, 2, 1, 1, 1, 1, 1, 6, 1, 3, 1, 6, 1, 10, 2, 15, 1, 2, 1, 4, 1, 1, 1, 4, 3,
   1, 1, 11, 2, 48, 3, 9, 1, 14, 1, 14, 1, 372, 2, 463, 3, 19, 2, 51, 1, 4, 1, 1242, 1, 12, 1, 601,
   1, 1, 1, 114026, 1, 363, 2, 12, 2, 130, 1, 23, 1, 20, 1, 7, 1, 213, 3, 5, 1, 6, 1, 4, 1, 2, 9, 9,
   1, 65, 1, 4, 1, 21, 1, 2, 2, 1, 3, 2, 2, 7, 1, 4, 3, 19, 1, 1, 1, 1, 1, 3, 5, 5, 13, 12, 1, 5, 1,
   1, 1, 1, 1, 16, 1, 12, 1, 9, 1, 6, 1, 24, 1, 1, 2, 3, 4, 3, 2, 4, 1, 22, 1, 18, 1, 37, 1, 12, 1,
   2, 1, 7, 1, 3, 1, 11, 1, 14, 1, 4, 1, 4, 3, 3, 4, 9, 1, 1, 3, 1, 1, 10, 1, 4, 1, 4, 2, 53, 2, 5,
   24, 7, 2, 2, 7, 13, 1, 2, 4, 2, 1, 20, 1, 2, 1, 8, 2, 9, 1, 5, 3, 12, 3, 8, 3, 2, 1, 1, 1, 4, 1,
   6, 1, 3, 1, 6, 1, 21, 1, 118, 1, 5, 1, 3, 1, 2, 1, 3, 1, 20, 1, 4, 1, 6, 2, 1, 1, 14, 1, 1, 3,
   16, 6, 3, 1, 6, 1, 2, 1]

/-- Pictures that a skin tone can follow. -/
def tonedChars : CharSet := .ofStretches
  [9757, 1, 219, 1, 16, 4, 117879, 1, 60, 3, 2, 1, 2, 3, 117, 2, 2, 11, 21, 19, 3, 1, 4, 3, 1, 3, 7,
   1, 1, 1, 24, 1, 201, 2, 4, 1, 21, 1, 4, 2, 174, 3, 3, 5, 83, 1, 16, 3, 9, 1, 11, 1, 575, 1, 2, 1,
   8, 8, 6, 1, 9, 10, 2, 3, 56, 1, 61, 2, 1, 2, 1, 1, 17, 3, 1, 13, 229, 3, 42, 11]

/-- The invisible character that joins what stands around it. -/
def joiner : Char := Char.ofNat 0x200d

/-- The keycap that is drawn around the character before it. -/
def keycap : Char := Char.ofNat 0x20e3

def blackFlag : Char := Char.ofNat 0x1f3f4

/-- The character that ends the tags after a flag. -/
def tagEnd : Char := Char.ofNat 0xe007f

/-- A letter that makes up the flag of a region together with another one. -/
def isRegionLetter (c : Char) : Bool :=
  0x1f1e6 ≤ c.toNat && c.toNat ≤ 0x1f1ff

def isSkinTone (c : Char) : Bool :=
  0x1f3fb ≤ c.toNat && c.toNat ≤ 0x1f3ff

def isTagLetter (c : Char) : Bool :=
  0xe0061 ≤ c.toNat && c.toNat ≤ 0xe007a

def isTagDigit (c : Char) : Bool :=
  0xe0030 ≤ c.toNat && c.toNat ≤ 0xe0039

/-- A sign that a selector for text makes narrow: a picture, unless it is drawn in a square. -/
def isNarrowable (c : Char) : Bool :=
  selectableChars.contains c && pictureChars.contains c &&
    !(0x1f200 ≤ c.toNat && c.toNat ≤ 0x1f2ff)

/-- How a text begins, where that is with an emoji or a part of one. -/
inductive EmojiTail where
  | picture
  | skinTone
  | regionLetter
  | regionLetters
  /-- A joiner before a picture. -/
  | joined
  /-- A keycap before a joined picture. -/
  | joinedKeycap
  /-- A single region letter before a joined picture. -/
  | joinedLetter
  /-- An even number of region letters before a joined picture. -/
  | joinedEven
  /-- An odd number of region letters before a joined picture, and more than one. -/
  | joinedOdd
  /-- The end of tags before a joined picture. -/
  | tagged
  | taggedLetters (count : Nat)
  | taggedDigits (count : Nat)
  deriving DecidableEq

namespace EmojiTail

/-- The tail that a character makes on its own. -/
def ofChar? (c : Char) : Option EmojiTail :=
  if isRegionLetter c then some regionLetter
  else if isSkinTone c then some skinTone
  else if pictureChars.contains c then some picture
  else none

/-- What a character before a joined picture adds to it. -/
def beforeJoined? (c : Char) : Option (Int × EmojiTail) :=
  if c = keycap then some (0, joinedKeycap)
  else if c = tagEnd then some (0, tagged)
  else
    (ofChar? c).map fun tail =>
      if tail = regionLetter then (1, joinedLetter) else (0, tail)

/-- The columns that a character takes before a tail that it belongs to, and the tail that they
make. -/
def before? (c : Char) : EmojiTail → Option (Int × EmojiTail)
  | picture => if c = joiner then some (0, joined) else none
  | skinTone =>
    if tonedChars.contains c then some (0, picture)
    else if c = joiner then some (0, joined)
    else none
  | regionLetter => if isRegionLetter c then some (1, regionLetters) else none
  | regionLetters =>
    if isRegionLetter c then some (1, regionLetters)
    else if c = joiner then some (0, joined)
    else none
  | joined => beforeJoined? c
  | joinedKeycap => none
  | joinedLetter => if isRegionLetter c then some (-1, joinedEven) else none
  | joinedEven =>
    if isRegionLetter c then some (3, joinedOdd)
    else if c = joiner then some (0, joined)
    else none
  | joinedOdd =>
    if isRegionLetter c then some (-1, joinedEven)
    else if c = joiner then some (0, joined)
    else none
  | tagged =>
    if isTagLetter c then some (0, taggedLetters 1)
    else if isTagDigit c then some (0, taggedDigits 1)
    else none
  | taggedLetters n =>
    if isTagLetter c && n < 6 then some (0, taggedLetters (n + 1))
    else if isTagDigit c && n ≤ 4 then some (0, taggedDigits 1)
    else if c = blackFlag && 3 ≤ n then some (0, picture)
    else none
  | taggedDigits n =>
    if isTagDigit c && n < 3 then some (0, taggedDigits (n + 1))
    else if c = blackFlag && n = 3 then some (0, picture)
    else none

end EmojiTail

end BlockGraph.Text
