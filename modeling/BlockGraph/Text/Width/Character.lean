import BlockGraph.Text.CharSet

/-!
The columns that a single character takes.

A character that is not shown takes none, and neither does one that is drawn together with the
character before or after it: a combining mark, a vowel or final consonant of a Hangul syllable, a
sign at the beginning of a cluster.  An East Asian wide or fullwidth character takes two columns,
and every other character takes one.  -/

namespace BlockGraph.Text

def zeroWidthChars : CharSet := .ofStretches
  [173, 1, 594, 112, 275, 7, 263, 45, 1, 1, 1, 2, 1, 2, 1, 3, 59, 1, 10, 11, 1, 1, 46, 21, 16, 1,
   101, 7, 2, 6, 2, 2, 1, 4, 33, 1, 1, 1, 30, 27, 91, 11, 58, 9, 9, 1, 24, 4, 1, 9, 1, 3, 1, 5, 43,
   3, 52, 2, 5, 9, 42, 57, 55, 1, 1, 1, 4, 8, 4, 1, 3, 7, 10, 2, 29, 1, 58, 1, 1, 1, 2, 4, 8, 1, 9,
   1, 10, 2, 26, 1, 2, 2, 57, 1, 4, 2, 4, 2, 2, 3, 3, 1, 30, 2, 3, 1, 11, 2, 57, 1, 4, 5, 1, 2, 4,
   1, 20, 2, 22, 6, 1, 1, 58, 1, 1, 2, 1, 4, 8, 1, 5, 5, 10, 2, 30, 1, 59, 1, 1, 1, 12, 1, 9, 1, 40,
   1, 3, 1, 55, 1, 1, 3, 5, 3, 1, 4, 7, 2, 11, 2, 29, 1, 58, 1, 2, 2, 1, 1, 3, 3, 1, 4, 7, 2, 11, 2,
   28, 2, 57, 2, 1, 1, 2, 4, 8, 2, 8, 1, 10, 2, 29, 1, 72, 1, 4, 1, 2, 3, 1, 1, 8, 1, 81, 1, 2, 7,
   12, 8, 98, 1, 2, 9, 11, 7, 73, 2, 27, 1, 1, 1, 1, 1, 55, 14, 1, 5, 1, 2, 5, 11, 1, 36, 9, 1, 102,
   4, 1, 6, 1, 2, 2, 2, 25, 2, 4, 3, 16, 4, 13, 1, 2, 2, 6, 1, 15, 1, 194, 160, 349, 3, 946, 4, 28,
   3, 29, 2, 30, 2, 64, 2, 1, 7, 8, 1, 2, 11, 9, 1, 45, 5, 117, 2, 34, 1, 118, 3, 4, 2, 9, 1, 6, 3,
   219, 2, 2, 1, 58, 1, 1, 7, 1, 1, 1, 1, 2, 8, 6, 10, 2, 1, 48, 65, 15, 4, 48, 10, 4, 3, 38, 9, 12,
   2, 32, 4, 2, 6, 56, 1, 1, 2, 3, 1, 1, 5, 56, 8, 2, 2, 152, 3, 1, 13, 1, 7, 4, 1, 6, 1, 3, 2, 198,
   64, 523, 5, 26, 5, 49, 16, 96, 33, 3070, 3, 238, 32, 554, 6, 105, 2, 201, 1, 29962, 4, 1, 10, 32,
   2, 80, 2, 272, 1, 3, 1, 4, 1, 25, 2, 5, 1, 151, 2, 26, 18, 8, 1, 4, 1, 38, 8, 25, 11, 1, 1, 44,
   3, 48, 1, 2, 4, 2, 2, 2, 1, 36, 1, 67, 6, 2, 2, 2, 2, 12, 1, 8, 1, 47, 1, 51, 1, 1, 3, 2, 2, 5,
   2, 1, 1, 42, 2, 8, 1, 238, 1, 2, 1, 4, 1, 11202, 23, 4, 49, 8994, 1, 737, 16, 16, 16, 207, 1,
   160, 1, 79, 9, 516, 1, 226, 1, 149, 5, 1670, 3, 1, 2, 5, 4, 40, 3, 4, 1, 165, 2, 573, 4, 65, 5,
   317, 2, 30, 5, 32, 16, 70, 11, 49, 4, 123, 1, 54, 15, 41, 1, 2, 2, 10, 3, 49, 4, 2, 2, 7, 1, 61,
   3, 36, 5, 1, 8, 62, 1, 12, 2, 52, 9, 1, 1, 1, 2, 5, 4, 2, 1, 95, 3, 2, 4, 6, 1, 2, 1, 157, 1, 3,
   8, 21, 2, 57, 2, 1, 1, 1, 1, 12, 1, 9, 1, 14, 7, 3, 5, 67, 1, 2, 6, 1, 1, 2, 1, 1, 3, 4, 5, 14,
   2, 85, 8, 2, 3, 1, 1, 23, 1, 81, 1, 2, 6, 1, 1, 2, 1, 1, 2, 1, 2, 235, 1, 2, 4, 6, 2, 1, 2, 27,
   2, 85, 8, 2, 1, 1, 2, 106, 1, 1, 1, 2, 8, 101, 1, 1, 1, 2, 4, 1, 5, 259, 9, 1, 2, 245, 1, 10, 5,
   1, 1, 1, 1, 144, 4, 2, 2, 4, 1, 32, 10, 40, 6, 2, 4, 8, 1, 9, 6, 2, 3, 40, 19, 1, 2, 198, 1, 1,
   3, 1, 1, 201, 7, 1, 6, 1, 1, 82, 22, 2, 7, 1, 2, 1, 2, 122, 6, 3, 1, 1, 2, 1, 9, 72, 2, 3, 1, 1,
   1, 88, 1, 258, 2, 11, 3, 51, 5, 5, 3, 23, 1, 5349, 1, 6, 15, 11464, 12, 3, 3, 2496, 5, 59, 7,
   1048, 1, 63, 4, 81, 1, 11, 2, 19627, 2, 1, 4, 4700, 46, 2, 23, 480, 2, 60, 5, 3, 22, 2, 7, 30, 4,
   148, 3, 11, 3, 8, 2, 2, 1, 32, 2, 1918, 55, 4, 50, 8, 1, 14, 1, 22, 5, 1, 15, 1360, 7, 1, 17, 2,
   7, 1, 2, 1, 5, 100, 1, 160, 7, 375, 1, 61, 4, 508, 4, 254, 2, 243, 1, 2, 1, 7, 2, 5, 1, 474, 7,
   109, 7, 792245, 4096]

def wideChars : CharSet := .ofStretches
  [4352, 96, 1604, 1, 2933, 2, 13, 2, 190, 4, 3, 1, 2, 1, 521, 2, 21, 2, 26, 8, 16, 12, 43, 1, 10,
   6, 3, 1, 13, 1, 8, 2, 17, 2, 5, 2, 8, 1, 5, 1, 21, 1, 7, 2, 1, 1, 4, 1, 2, 1, 7, 1, 4, 2, 28, 1,
   35, 1, 1, 1, 4, 3, 1, 1, 61, 3, 24, 1, 14, 1, 859, 2, 51, 1, 4, 1, 810, 26, 1, 89, 12, 214, 26,
   58, 6, 15, 2, 86, 4, 101, 5, 43, 1, 51, 1, 42, 1, 86, 9, 48, 1, 40, 8, 29245, 3, 55, 1177, 29,
   643, 11172, 8540, 512, 784, 10, 22, 35, 1, 19, 1, 4, 149, 96, 127, 7, 28665, 4, 14, 5, 9, 7387,
   36, 34, 95, 115, 13, 914, 14, 51, 7709, 4, 1, 7, 1, 2, 1, 297, 9, 1, 29, 3, 2, 1, 14, 5, 7, 396,
   8196, 87, 9, 23, 7309, 1, 202, 1, 190, 1, 2, 10, 19, 1, 81, 3, 13, 44, 4, 9, 7, 2, 14, 6, 154,
   33, 12, 9, 1, 70, 1, 22, 12, 43, 4, 5, 12, 17, 3, 1, 3, 71, 1, 1, 1, 187, 2, 63, 13, 4, 1, 24,
   18, 1, 26, 2, 13, 1, 86, 85, 48, 70, 6, 1, 3, 3, 2, 5, 2, 4, 11, 2, 7, 9, 221, 1, 5, 12, 4, 1,
   283, 47, 1, 10, 1, 185, 112, 13, 3, 71, 1, 1, 3, 18, 1, 13, 3, 12, 1285, 65534, 2, 65534]

/-- The Khmer sign for "and so on", which is drawn with three letters. -/
def beyyal : Char := Char.ofNat 0x17d8

def charWidth (c : Char) : Nat :=
  if c = beyyal then 3
  else if zeroWidthChars.contains c then 0
  else if wideChars.contains c then 2
  else 1

end BlockGraph.Text
