import BlockGraph.Error

/-!
Legal names, and free ones near a candidate.

A candidate is first made into a legal name.  If that name is taken, the number at its end is
counted up, or the digit 2 is added where there is no such number.  The search ends after a fixed
number of attempts.
-/

namespace BlockGraph.Naming

/-- The name for a type whose candidate has no legal character. -/
def typePlaceholder : String := "UserType"

/-- The name for a constructor whose candidate has no legal character. -/
def constructorPlaceholder : String := "Constructor"

def maxAttempts : Nat := 1000

/-- The largest number at the end of a name that is counted up. -/
def maxSuffix : Nat := 0xffffffffffffffff

def isNameChar (c : Char) : Bool :=
  c.isAlphanum || c = '_'

/-- The legal name nearest to a candidate.  It starts with an uppercase letter or an underscore, if
the placeholder does. -/
def sanitize (candidate placeholder : String) : String :=
  match candidate.toList.filter isNameChar with
  | [] => placeholder
  | first :: rest =>
    if first.isDigit then placeholder ++ String.ofList (first :: rest)
    else String.ofList (first.toUpper :: rest)

def decimalValue (digits : List Char) : Nat :=
  digits.foldl (fun n c => 10 * n + (c.toNat - '0'.toNat)) 0

/-- The name that is tried after `name`. -/
def next (name : String) : String :=
  let reversed := name.toList.reverse
  let digits := (reversed.takeWhile Char.isDigit).reverse
  let stem := (reversed.dropWhile Char.isDigit).reverse
  let number := decimalValue digits
  if digits.isEmpty || stem.isEmpty || maxSuffix < number then name ++ "2"
  else String.ofList stem ++ toString (min (number + 1) maxSuffix)

/-- The first name from `name` on that is not taken, among as many as there are attempts. -/
def firstFree (taken : String → Bool) : Nat → String → Option String
  | 0, _ => none
  | attempts + 1, name =>
    if taken name then firstFree taken attempts (next name) else some name

/-- A legal name near the candidate that is not taken. -/
def propose (candidate placeholder : String) (taken : String → Bool) : Except TypeError String :=
  match firstFree taken maxAttempts (sanitize candidate placeholder) with
  | some name => .ok name
  | none => .error (.nameCollision candidate maxAttempts)

end BlockGraph.Naming
