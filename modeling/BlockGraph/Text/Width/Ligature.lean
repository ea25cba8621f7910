import BlockGraph.Text.Width.Character
import BlockGraph.Text.Width.Emoji

/-!
The width of letters that are drawn as one.

Some scripts draw certain letters together in the place of one.  The width of a text is added up
from its end, and a `LigatureTail` says how the part that has been added up begins, where a letter
before it could be drawn together with it.

Marks that are not shown may stand anywhere between the letters.  A joiner may too, except in
Arabic, where instead every mark may that letters join across.  Only the vowel signs of Kirat Rai
have to stand next to one another.  -/

namespace BlockGraph.Text

def alefChars : CharSet := .mk
  [(0x622, 0x623), (0x625, 0x625), (0x627, 0x627), (0x671, 0x673), (0x675, 0x675), (0x773, 0x774),
   (0x870, 0x882)]

def lamChars : CharSet := .mk
  [(0x644, 0x644), (0x6b5, 0x6b8), (0x76a, 0x76a), (0x8a6, 0x8a6), (0x8c7, 0x8c7)]

/-- Characters that take no column, and that Arabic letters nevertheless do not join across. -/
def separatingChars : CharSet := .ofStretches
  [1541, 1, 650, 2, 80, 1, 219, 1, 24, 1, 358, 1, 24, 1, 102, 1, 24, 1, 232, 1, 1, 1, 4, 2, 1, 2, 9,
   2, 103, 1, 15, 1, 8, 1, 119, 1, 15, 1, 896, 160, 1301, 1, 30, 1, 217, 1, 806, 1, 5, 1, 1, 1, 5,
   2, 101, 1, 71, 2, 1048, 2, 87, 5, 4036, 2, 308, 1, 30613, 1, 88, 1, 108, 1, 11759, 23, 4, 49,
   10148, 1, 79, 9, 4551, 1, 1, 2, 113, 1, 264, 1, 14, 1, 9, 1, 96, 1, 9, 1, 2, 1, 1, 3, 5, 1, 1, 1,
   222, 1, 12, 1, 241, 1, 262, 1, 633, 1, 12, 1, 1, 1, 1, 1, 322, 6, 700, 1, 443, 1, 62, 1, 20654,
   2, 24947, 2, 6, 6, 221, 3, 12, 1, 32, 2, 798078, 1, 1, 30, 96, 128, 240, 3600]

/-- Khmer letters that have a form below the letter before them. -/
def subscriptChars : CharSet := .mk
  [(0x1780, 0x1782), (0x1784, 0x1787), (0x1789, 0x178c), (0x178e, 0x1793), (0x1795, 0x1798),
   (0x179b, 0x179d), (0x17a0, 0x17a0), (0x17a2, 0x17a2), (0x17a7, 0x17a7), (0x17ab, 0x17ac),
   (0x17af, 0x17af)]

def tifinaghChars : CharSet := .mk
  [(0x2d31, 0x2d65), (0x2d6f, 0x2d6f)]

/-- Marks that are not shown. -/
def ignoredMarks : CharSet := .mk
  [(0x34f, 0x34f), (0x17b4, 0x17b5), (0x180b, 0x180d), (0x180f, 0x180f), (0xfe00, 0xfe0f),
   (0xe0100, 0xe01ef)]

/-- A mark that Arabic letters join across. -/
def isJoinedAcross (c : Char) : Bool :=
  zeroWidthChars.contains c && !separatingChars.contains c

/-- How a text begins, where that is with a letter that can be drawn together with one before it. -/
inductive LigatureTail where
  /-- The Arabic letter alef. -/
  | alef
  /-- The Hebrew letter lamed, perhaps with a joiner before it. -/
  | lamed (joined : Bool)
  /-- A Khmer letter with a form below the line. -/
  | subscript
  /-- The Buginese letter ya, perhaps with a joiner before it. -/
  | ya (joined : Bool)
  /-- The vowel sign i before a joined ya. -/
  | vowelYa
  /-- A Tifinagh consonant, perhaps with a joiner before it. -/
  | consonant (joined : Bool)
  /-- The Tifinagh joining sign before a consonant. -/
  | signedConsonant
  /-- The second half of a Lisu tone. -/
  | tone
  /-- The Old Turkic letter i, perhaps with a joiner before it. -/
  | oldTurkicI (joined : Bool)
  /-- The Kirat Rai vowel sign e. -/
  | vowelE
  /-- The Kirat Rai vowel sign ai, which two signs e make up. -/
  | vowelAi
  deriving DecidableEq

namespace LigatureTail

/-- The tail that a character makes on its own. -/
def ofChar? (c : Char) : Option LigatureTail :=
  if alefChars.contains c then some alef
  else if c.toNat = 0x5dc then some (lamed false)
  else if subscriptChars.contains c then some subscript
  else if c.toNat = 0x1a10 then some (ya false)
  else if tifinaghChars.contains c then some (consonant false)
  else if c.toNat = 0xa4fc || c.toNat = 0xa4fd then some tone
  else if c.toNat = 0x10c03 then some (oldTurkicI false)
  else if c.toNat = 0x16d67 then some vowelE
  else if c.toNat = 0x16d68 then some vowelAi
  else none

/-- The tail after a joiner has come before it. -/
def join : LigatureTail → LigatureTail
  | lamed _ => lamed true
  | ya _ => ya true
  | consonant _ => consonant true
  | oldTurkicI _ => oldTurkicI true
  | tail => tail

/-- Whether a tail lasts when a mark that is not shown comes before it. -/
def isLasting : LigatureTail → Bool
  | vowelE => false
  | vowelAi => false
  | _ => true

/-- Whether a character may stand before a tail without ending it. -/
def passes (c : Char) : LigatureTail → Bool
  | alef => isJoinedAcross c
  | tail => tail.isLasting && (c = joiner || ignoredMarks.contains c)

/-- The columns that a letter takes before a tail that it is drawn together with, and the tail that
they make, if they make one. -/
def letterBefore? (c : Char) : LigatureTail → Option (Int × Option LigatureTail)
  | alef => if lamChars.contains c then some (0, none) else none
  | lamed joined => if joined && c.toNat = 0x5d0 then some (0, none) else none
  | subscript => if c.toNat = 0x17d2 then some (-1, none) else none
  | ya joined => if joined && c.toNat = 0x1a17 then some (0, some vowelYa) else none
  | vowelYa => if c.toNat = 0x1a15 then some (0, none) else none
  | consonant joined =>
    if c.toNat = 0x2d7f then some (1, some signedConsonant)
    else if joined && tifinaghChars.contains c then some (0, none)
    else none
  | signedConsonant => if tifinaghChars.contains c then some (-1, none) else none
  | tone => if 0xa4f8 ≤ c.toNat && c.toNat ≤ 0xa4fb then some (0, none) else none
  | oldTurkicI joined => if joined && c.toNat = 0x10c32 then some (0, none) else none
  | vowelE =>
    if c.toNat = 0x16d63 || c.toNat = 0x16d69 then some (0, none)
    else if c.toNat = 0x16d67 then some (0, some vowelAi)
    else if c.toNat = 0x16d68 then some (1, some vowelE)
    else none
  | vowelAi => if c.toNat = 0x16d63 then some (0, none) else none

/-- The columns that a character takes before a tail that it belongs to, and the tail that they
make, if they make one. -/
def before? (c : Char) (tail : LigatureTail) : Option (Int × Option LigatureTail) :=
  if tail.passes c then some (0, some (if c = joiner then tail.join else tail))
  else tail.letterBefore? c

end LigatureTail

end BlockGraph.Text
