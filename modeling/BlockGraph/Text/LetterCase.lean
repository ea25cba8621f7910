import BlockGraph.Text.CharSet

/-!
Letter case: the Unicode properties Uppercase and Lowercase.  A titlecase letter has neither.
-/

namespace BlockGraph.Text

/-- Stretches of one code point each, as where the two cases take turns. -/
def ones (n : Nat) : List Nat :=
  .replicate n 1

def upperChars : CharSet := .ofStretches <|
  [65, 26, 101, 23, 1, 7, 33] ++ ones 55 ++ [2] ++ ones 15 ++ [2] ++ ones 46 ++ [2, 1, 1, 1, 1, 3,
  2, 1, 1, 1, 2, 1, 3, 2, 4, 1, 2, 1, 3, 3, 2, 1, 2, 1, 1, 1, 1, 1, 2, 1, 1, 2, 1, 1, 2, 1, 3, 1,
  1, 1, 2, 3, 1, 7, 1, 2, 1, 2, 1, 2] ++ ones 15 ++ [2] ++ ones 17 ++ [2, 1, 2, 1, 1, 3] ++
  ones 58 ++ [7, 2, 1, 2, 2, 1, 1, 4, 1, 1, 1, 1, 1, 1, 1, 1, 289, 1, 1, 1, 3, 1, 8, 1, 6, 1, 1, 3,
  1, 1, 1, 2, 1, 17, 1, 9, 35, 1, 2, 3, 3] ++ ones 23 ++ [5, 1, 2, 1, 1, 2, 2, 51, 48] ++
  ones 33 ++ [9] ++ ones 54 ++ [2] ++ ones 12 ++ [2] ++ ones 95 ++ [2, 38, 2889, 38, 1, 1, 5, 1,
  722, 86, 2195, 1, 6, 43, 2, 3, 320] ++ ones 149 ++ [9] ++ ones 97 ++ [9, 8, 8, 6, 10, 8, 8, 8, 8,
  6, 11, 1, 1, 1, 1, 1, 1, 1, 8, 8, 72, 4, 12, 4, 12, 4, 12, 5, 11, 4, 262, 1, 4, 1, 3, 3, 2, 3, 2,
  1, 3, 5, 6, 1, 1, 1, 1, 1, 1, 4, 2, 4, 10, 2, 5, 1, 26, 16, 19, 1, 818, 26, 1840, 48, 48, 1, 1,
  3, 2, 1, 1, 1, 1, 1, 1, 4, 1, 1, 2, 1, 8, 3] ++ ones 98 ++ [8, 1, 1, 1, 4, 1, 31053] ++
  ones 45 ++ [19] ++ ones 27 ++ [135] ++ ones 13 ++ [3] ++ ones 61 ++ [10, 1, 1, 1, 1, 2, 1, 1, 1,
  1, 1, 1, 1, 1, 4, 1, 1, 1, 2, 1, 1, 1, 3] ++ ones 20 ++ [5, 1, 5] ++ ones 15 ++ [4, 1, 1, 1,
  2] ++ ones 16 ++ [24, 1, 22315, 26, 1221, 40, 136, 36, 156, 11, 1, 15, 1, 7, 1, 2, 1770, 51, 157,
  22, 2874, 32, 21888, 32, 64, 25, 25927, 26, 26, 26, 26, 26, 26, 1, 1, 2, 2, 1, 2, 2, 2, 4, 1, 8,
  26, 26, 26, 2, 1, 4, 2, 8, 1, 7, 27, 2, 1, 4, 1, 5, 1, 1, 3, 7, 27, 26, 26, 26, 26, 26, 26, 26,
  26, 26, 26, 26, 30, 25, 33, 25, 33, 25, 33, 25, 33, 25, 33, 1, 4405, 34, 2062, 26, 6, 26, 6, 26]

def lowerChars : CharSet := .ofStretches <|
  [97, 26, 47, 1, 10, 1, 4, 1, 36, 24, 1, 8] ++ ones 55 ++ [2] ++ ones 15 ++ [2] ++ ones 46 ++ [2,
  1, 1, 1, 1, 3, 2, 1, 1, 1, 2, 1, 3, 2, 4, 1, 2, 1, 3, 3, 2, 1, 2, 1, 1, 1, 1, 1, 2, 1, 1, 2, 1,
  1, 2, 1, 3, 1, 1, 1, 2, 2, 2, 3, 6, 1, 2, 1, 2] ++ ones 16 ++ [2] ++ ones 17 ++ [2, 2, 1, 1, 1,
  3] ++ ones 58 ++ [7, 2, 1, 2, 2, 1, 1, 4, 1, 1, 1, 1, 1, 1, 1, 1, 69, 2, 35, 7, 2, 30, 5, 96, 1,
  43, 1, 1, 1, 3, 1, 2, 4, 18, 1, 27, 35, 1, 2, 3, 3] ++ ones 23 ++ [5, 1, 1, 2, 1, 2, 2, 51,
  48] ++ ones 34 ++ [9] ++ ones 53 ++ [2] ++ ones 12 ++ [2] ++ ones 96 ++ [48, 41, 2887, 43, 1, 4,
  760, 6, 2178, 9, 1, 1, 117, 192, 65] ++ ones 148 ++ [9] ++ ones 97 ++ [9, 8, 6, 10, 8, 8, 8, 8,
  6, 10, 8, 8, 8, 8, 14, 2, 8, 8, 8, 8, 8, 8, 5, 1, 2, 6, 1, 3, 3, 1, 2, 8, 4, 2, 2, 8, 8, 10, 3,
  1, 2, 121, 1, 13, 1, 16, 13, 109, 1, 3, 2, 3, 1, 27, 1, 4, 1, 4, 1, 2, 2, 8, 4, 4, 1, 33, 16, 4,
  1, 843, 26, 1862, 48, 1, 1, 3, 2, 1, 1, 1, 1, 1, 1, 4, 1, 1, 2, 1, 8, 3] ++ ones 98 ++ [2, 7, 1,
  1, 1, 4, 1, 12, 38, 1, 1, 5, 1, 30995] ++ ones 45 ++ [19] ++ ones 26 ++ [3, 133] ++ ones 12 ++
  [3] ++ ones 61 ++ [10, 1, 1, 1, 1, 2, 1, 1, 1, 1, 1, 1, 1, 1, 1, 4, 1, 1, 1, 2, 1, 1, 3] ++
  ones 20 ++ [5, 1, 5] ++ ones 15 ++ [4, 1, 1, 1, 2] ++ ones 15 ++ [21, 4, 1, 1, 1, 3, 821, 43, 1,
  14, 6, 80, 20288, 7, 12, 5, 1065, 26, 1229, 40, 136, 36, 155, 11, 1, 15, 1, 7, 1, 2, 451, 1, 2,
  3, 1, 42, 1, 9, 1285, 51, 125, 22, 2874, 32, 21888, 32, 59, 25, 25926, 26, 26, 7, 1, 18, 26, 26,
  26, 4, 1, 1, 1, 7, 1, 11, 26, 26, 26, 26, 26, 26, 26, 26, 26, 26, 26, 26, 26, 26, 26, 26, 26, 28,
  28, 25, 1, 6, 26, 25, 1, 6, 26, 25, 1, 6, 26, 25, 1, 6, 26, 25, 1, 6, 1, 1, 1844, 10, 1, 20, 6,
  6, 261, 62, 2228, 34]

def isUppercase (c : Char) : Bool :=
  upperChars.contains c

def isLowercase (c : Char) : Bool :=
  lowerChars.contains c

end BlockGraph.Text
