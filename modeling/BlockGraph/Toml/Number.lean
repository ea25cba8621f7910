import BlockGraph.Toml.Text

/-!
Numbers, dates and times.

Whole numbers have 64 bits.  Other numbers have no use in a description, so they are only checked.
A date or time is kept as its text in a normal form: a `T` stands between date and time, a fraction
of a second has at most nine digits and does not end in zero, and the offset zero is not negative.
-/

namespace BlockGraph.Toml

open BlockGraph.Toml.Parser

/-! ## Numbers -/

/-- Digits after a first one.  An underscore may stand between two digits. -/
def moreDigits (isDigit : Char → Bool) : Parser (List Char) :=
  many (satisfy isDigit <|> (do char '_'; satisfy isDigit))

def digitsWith (isDigit : Char → Bool) : Parser (List Char) := do
  let first ← satisfy isDigit
  return first :: (← moreDigits isDigit)

def sign : Parser Bool := do
  match ← maybe (satisfy fun c => c = '+' || c = '-') with
  | some '-' => return true
  | _ => return false

/-- A sign and digits in base ten.  More than one digit must not begin with zero. -/
def decimal : Parser (Bool × List Char) := do
  let negative ← sign
  let first ← satisfy Char.isDigit
  if first = '0' then return (negative, [first])
  else return (negative, first :: (← moreDigits Char.isDigit))

/-- The number, if it has 64 bits. -/
def inRange (n : Int) : Parser Int :=
  if -0x8000000000000000 ≤ n && n ≤ 0x7fffffffffffffff then return n else failure

/-- Digits of a base after the mark that stands for it. -/
def marked (mark : String) (base : Nat) (isDigit : Char → Bool) : Parser Int := do
  word mark
  inRange (ofDigits base (← digitsWith isDigit))

def integer : Parser Int :=
  marked "0x" 16 isHexDigit <|>
  marked "0o" 8 (fun c => '0' ≤ c && c ≤ '7') <|>
  marked "0b" 2 (fun c => c = '0' || c = '1') <|> do
    let (negative, digits) ← decimal
    let n : Int := ofDigits 10 digits
    inRange (if negative then -n else n)

/-- Whether `digits` with the point moved by `exponent` is too large for 64 bits, that is, at least
halfway from the largest such number to the power of two after it. -/
def overflows (digits : List Char) (exponent : Int) : Bool :=
  let digits := digits.dropWhile (· = '0')
  let size := digits.length + exponent
  let bound := Nat.pow 2 1024 - Nat.pow 2 970
  if digits.isEmpty || size ≤ 300 then false
  else if 400 ≤ size then true
  else if 0 ≤ exponent then bound ≤ ofDigits 10 digits * Nat.pow 10 exponent.toNat
  else bound * Nat.pow 10 (-exponent).toNat ≤ ofDigits 10 digits

def exponent : Parser Int := do
  let _ ← satisfy fun c => c = 'e' || c = 'E'
  let negative ← sign
  let n : Int := ofDigits 10 (← digitsWith Char.isDigit)
  return if negative then -n else n

/-- A number with a fraction, an exponent or both. -/
def float : Parser Unit := do
  let (negative, whole) ← decimal
  let fraction ← maybe (do char '.'; digitsWith Char.isDigit)
  let e ← maybe exponent
  if fraction.isNone && e.isNone then failure
  let fraction := fraction.getD []
  if !negative && overflows (whole ++ fraction) (e.getD 0 - fraction.length) then failure

/-- Infinity, or what is not a number. -/
def specialFloat : Parser Unit := do
  let _ ← sign
  word "inf" <|> word "nan"

/-! ## Dates and times -/

/-- A number with `n` digits and within bounds. -/
def field (n low high : Nat) : Parser Nat := do
  let k := ofDigits 10 (← takeExactly n Char.isDigit)
  if low ≤ k && k ≤ high then return k else failure

def isLeapYear (year : Nat) : Bool :=
  year % 4 = 0 && (year % 100 ≠ 0 || year % 400 = 0)

def daysIn (year month : Nat) : Nat :=
  if month = 2 then if isLeapYear year then 29 else 28
  else if month = 4 || month = 6 || month = 9 || month = 11 then 30
  else 31

/-- The digits of a number, with zeros before them if they are fewer than `n`. -/
def padded (n k : Nat) : String :=
  "".pushn '0' (n - (toString k).length) ++ toString k

def date : Parser String := do
  let year ← field 4 0 9999
  char '-'
  let month ← field 2 1 12
  char '-'
  let day ← field 2 1 (daysIn year month)
  return s!"{padded 4 year}-{padded 2 month}-{padded 2 day}"

/-- Hours and minutes. -/
def clock : Parser (Nat × Nat) := do
  let hour ← field 2 0 23
  char ':'
  let minute ← field 2 0 59
  return (hour, minute)

def clockText (hour minute : Nat) : String :=
  s!"{padded 2 hour}:{padded 2 minute}"

/-- A fraction of a second, down to its ninth digit. -/
def fractionText (digits : List Char) : String :=
  let kept := ((digits.take 9).reverse.dropWhile (· = '0')).reverse
  if kept.isEmpty then "" else String.ofList ('.' :: kept)

def time : Parser String := do
  let (hour, minute) ← clock
  char ':'
  let second ← field 2 0 60
  let fraction ← maybe (do
    char '.'
    let first ← satisfy Char.isDigit
    return first :: (← takeWhile Char.isDigit))
  return s!"{clockText hour minute}:{padded 2 second}{fractionText (fraction.getD [])}"

def offset : Parser String :=
  (do
    let _ ← satisfy fun c => c = 'Z' || c = 'z'
    return "Z") <|> do
    let mark ← satisfy fun c => c = '+' || c = '-'
    let (hour, minute) ← clock
    let mark := if hour = 0 && minute = 0 then '+' else mark
    return s!"{mark}{clockText hour minute}"

def dateTime : Parser String :=
  (do
    let day ← date
    let rest ← maybe (do
      let _ ← satisfy fun c => c = 'T' || c = 't' || c = ' '
      let moment ← time
      let zone ← maybe offset
      return "T" ++ moment ++ zone.getD "")
    return day ++ rest.getD "") <|> time

end BlockGraph.Toml
